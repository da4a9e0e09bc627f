import LinkOrder.Proofs.Acceptance
import LinkOrder.Proofs.Locality
import LinkOrder.Proofs.Requests
import LinkOrder.Proofs.Writing

namespace LinkOrder

theorem State.matches_of_perm {units units' : List LinkUnit} {extdefs includes : SymbolSet}
    {sink : Option SymbolSet} {s t : State} (hs : State.build units extdefs includes sink = .ok s)
    (ht : State.build units' extdefs includes sink = .ok t) (hperm : units.Perm units') (policy : Policy)
    (start : List Symbol) :
    (s.traverse policy (some start)).Matches (t.traverse policy (some start)) := by
  have hperm' : units'.Perm (units ++ []) := by simpa using hperm.symm
  exact matches_of_owners hs ht fun name _ ↦ owner?_of_perm hs ht hperm' (by simp)

theorem State.reportLines_congr {s t : State} (horder : t.order = s.order) (hextdefs : t.extdefs = s.extdefs)
    (hunresolved : t.unresolved = s.unresolved) : t.reportLines = s.reportLines := by
  unfold reportLines usedExternals missing
  rw [horder, hextdefs, hunresolved]

namespace Job

variable {t : FileTree} {job : Job} {units units' : List LinkUnit} {o o' : Outcome} {names : List Symbol}

def build (job : Job) (units : List LinkUnit) : Except LinkError State :=
  State.build units job.externs job.includes (if job.strict then none else some ∅)

theorem link_of_build {s : State} (h : job.build units = .ok s) :
    job.link units = (s.traverse job.policy job.start).error.elim (.ok (s.traverse job.policy job.start)) .error := by
  unfold build at h
  unfold link
  rw [h]
  dsimp only [bind, Except.bind]
  split <;> next heq => rw [heq]; rfl

theorem link_of_error {e : LinkError} (h : job.build units = .error e) : job.link units = .error e := by
  unfold build at h
  unfold link
  rw [h]
  rfl

theorem exists_build_iff : (∃ s, job.build units = .ok s) ↔ Accepted job.externs units := State.exists_build_iff

/-- In whatever order a link has its units, it fails or comes to the same order and the same report. -/
theorem link_of_perm (hstart : job.start = some names) (hperm : units.Perm units') :
    (∃ e e', job.link units = .error e ∧ job.link units' = .error e') ∨
      ∃ o o', job.link units = .ok o ∧ job.link units' = .ok o' ∧ o'.visits = o.visits ∧
        o'.state.reportLines = o.state.reportLines := by
  by_cases hunits : Accepted job.externs units
  · obtain ⟨s, hs⟩ := exists_build_iff.2 hunits
    obtain ⟨s', hs'⟩ := exists_build_iff.2 (hunits.perm hperm)
    have hmatches := State.matches_of_perm hs hs' hperm job.policy names
    rw [link_of_build hs, link_of_build hs', hstart]
    have herror := hmatches.error
    cases he : (s.traverse job.policy (some names)).error with
    | some e =>
      rw [herror, he]
      exact .inl ⟨e, e, rfl, rfl⟩
    | none =>
      rw [he] at herror
      rw [herror]
      refine .inr ⟨_, _, rfl, rfl, hmatches.visits, ?_⟩
      have horder := ((State.fresh_of_build hs).ready.traverse he).2
      have horder' := ((State.fresh_of_build hs').ready.traverse herror).2
      refine State.reportLines_congr ?_ hmatches.extdefs hmatches.unresolved
      rw [horder, horder', (State.fresh_of_build hs).order, (State.fresh_of_build hs').order, hmatches.visits]
  · have hunits' : ¬Accepted job.externs units' := fun h ↦ hunits (h.perm hperm.symm)
    have hfails {units : List LinkUnit} (h : ¬Accepted job.externs units) : ∃ e, job.link units = .error e := by
      cases hb : job.build units with
      | error e => exact ⟨e, link_of_error hb⟩
      | ok s => exact absurd (exists_build_iff.1 ⟨s, hb⟩) h
    obtain ⟨e, he⟩ := hfails hunits
    obtain ⟨e', he'⟩ := hfails hunits'
    exact .inl ⟨e, e', he, he'⟩

theorem artifacts_congr (hemit : job.emit = .order) (hvisits : o'.visits = o.visits)
    (hreport : o'.state.reportLines = o.state.reportLines) : job.artifacts o' = job.artifacts o := by
  unfold artifacts outputArtifact outputText reportArtifact State.reportPieces
  rw [hemit, hvisits, hreport]

/-- With symbols to begin from, jobs that differ in the order or the repetition of their inputs fail together or write
the same. -/
theorem order_of_inputs_is_immaterial {inputs : List Path} {out : List String} (ht : t.Named)
    (hstart : job.start = some names) (hemit : job.emit = .order) (hinputs : ∀ p, p ∈ inputs ↔ p ∈ job.inputs)
    (hout : t.destination job.output = .ok out)
    (hreport : ∀ path ∈ job.report, ∃ rep, t.destination path = .ok rep ∧ rep ≠ out) :
    (∃ e e', (job.run t).result = .error e ∧ ({ job with inputs }.run t).result = .error e') ∨
      (job.run t).result = .ok () ∧ ({ job with inputs }.run t).result = .ok () ∧
        ({ job with inputs }.run t).tree = (job.run t).tree ∧
        (∃ order, (job.run t).tree.get? out = some (.file order)) ∧
        ∀ path ∈ job.report, ∃ rep report, t.destination path = .ok rep ∧
          (job.run t).tree.get? rep = some (.file report) := by
  cases hl : (load t job.inputs).1 with
  | error e =>
    cases hl' : (load t inputs).1 with
    | error e' =>
      obtain ⟨log, hrun⟩ := run_of_load_error hl {}
      obtain ⟨log', hrun'⟩ : ∃ log, { job with inputs }.run t = ⟨.error e', log, t⟩ := run_of_load_error hl' {}
      exact .inl ⟨e, e', by rw [hrun], by rw [hrun']⟩
    | ok units =>
      obtain ⟨units', hunits'⟩ := (exists_load_congr ht hinputs).1 ⟨units, hl'⟩
      cases hl.symm.trans hunits'
  | ok units =>
    obtain ⟨units', hl'⟩ := (exists_load_congr ht hinputs).2 ⟨units, hl⟩
    have hperm := perm_of_load ht hinputs hl hl'
    rcases link_of_perm hstart hperm with ⟨e, e', he, he'⟩ | ⟨o, o', ho, ho', hvisits, hsame⟩
    · obtain ⟨log, hrun⟩ := run_of_link_error hl he {}
      have hlink : { job with inputs }.link units' = .error e' := he'
      obtain ⟨log', hrun'⟩ : ∃ log, { job with inputs }.run t = ⟨.error (.link e'), log, t⟩ :=
        run_of_link_error hl' hlink {}
      exact .inl ⟨_, _, by rw [hrun], by rw [hrun']⟩
    · obtain ⟨log, hrun⟩ := run_of_link hl ho {}
      have hlink : { job with inputs }.link units' = .ok o' := ho'
      obtain ⟨log', hrun'⟩ : ∃ log, { job with inputs }.run t = writeAll {} t log (job.artifacts o') :=
        run_of_link hl' hlink {}
      obtain ⟨hresult, hfile, hfiles⟩ := writeAll_artifacts hout hreport log o
      obtain ⟨hresult', htree⟩ := writeAll_congr {} t log' log (job.artifacts o)
      rw [hrun, hrun', artifacts_congr hemit hvisits hsame]
      refine .inr ⟨hresult, hresult'.trans hresult, htree, ⟨_, hfile⟩, fun path hpath ↦ ?_⟩
      obtain ⟨rep, hrep, hget⟩ := hfiles path hpath
      exact ⟨rep, _, hrep, hget⟩

namespace Loop

def tree : FileTree :=
  { entries :=
      [(["d"], .dir),
        (["d", "a"], .file (Text.encode ("<units><import path=\"../c\"/><unit name=\"A\"><def id=\"a\"/>" ++
          "<pre id=\"c\"/></unit></units>"))),
        (["d", "b"], .file (Text.encode ("<units><import path=\"a\"/><unit name=\"B\"><def id=\"b\"/>" ++
          "<dep id=\"x\"/></unit></units>"))),
        (["c"], .file (Text.encode ("<units><import path=\"d/b\"/><unit name=\"C\"><def id=\"c\"/>" ++
          "<dep id=\"b\"/></unit></units>")))]
    current := ["d"] }

def circle : Job :=
  { inputs := [⟨"a"⟩, ⟨"b"⟩], output := ⟨"out"⟩, start := some ["a"], report := some ⟨"../rep"⟩ }

def shuffled : List Path := [⟨"b"⟩, ⟨"a"⟩, ⟨"b"⟩]

theorem named : tree.Named := List.forall_mem_singleton.2 (by simp [Path.IsStep, Path.isIdle])

theorem output_destination : tree.destination circle.output = .ok ["d", "out"] := by rfl

theorem report_destination : tree.destination ⟨"../rep"⟩ = .ok ["rep"] := by rfl

theorem shuffled_writes_the_same :
    tree.Named ∧ tree.destination circle.output = .ok ["d", "out"] ∧
      ({ circle with inputs := shuffled }.run tree).result = .ok () ∧
      ({ circle with inputs := shuffled }.run tree).tree = (circle.run tree).tree ∧
      (circle.run tree).tree.get? ["d", "out"] = some (.file (Text.encode "C\nA\nB\n")) := by
  have hinputs : ∀ p, p ∈ shuffled ↔ p ∈ circle.inputs := by
    intro p
    simp only [shuffled, circle, List.mem_cons, List.not_mem_nil, or_false]
    tauto
  have hreport : ∀ path ∈ circle.report, ∃ rep, tree.destination path = .ok rep ∧ rep ≠ ["d", "out"] := by
    intro path hpath
    cases hpath
    exact ⟨["rep"], report_destination, by decide⟩
  obtain ⟨hok, hwritten⟩ : (circle.run tree).result.toOption = some () ∧
      (circle.run tree).tree.get? ["d", "out"] = some (.file (Text.encode "C\nA\nB\n")) := by
    decide +kernel
  rcases order_of_inputs_is_immaterial named rfl rfl hinputs output_destination hreport with
    ⟨e, e', he, -⟩ | ⟨-, hresult, htree, -⟩
  · rw [he] at hok
    cases hok
  · exact ⟨named, output_destination, hresult, htree, hwritten⟩

end Loop

end Job

end LinkOrder
