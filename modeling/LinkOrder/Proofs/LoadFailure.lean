import LinkOrder.Proofs.Requests

namespace LinkOrder

namespace FileTree

variable {t : FileTree} {p c : Path} {seen requests rest inputs files : List Path}

/-- The requests, taken in depth-first preorder with the files in `seen` left out, come to `p` when just `files` were
taken, all of them unit files: those above `p`, of whose imports some are still to come, and those before it with all
that they import. -/
inductive ComesTo (t : FileTree) : List Path → List Path → List Path → Path → Prop
  | here {seen rest : List Path} {p : Path} : ComesTo t seen (p :: rest) [] p
  | inside {seen rest files : List Path} {p q c : Path} {contents : UnitFile.Contents}
      (hc : t.canonicalize q = .ok c) (hnew : ¬Taken seen c) (hread : t.contents? c = some contents)
      (hinner : ComesTo t (seen ++ [c]) (contents.imports.map (c.importing ⟨·⟩)) files p) :
      ComesTo t seen (q :: rest) (c :: files) p
  | later {seen rest before files : List Path} {p q : Path} (hbefore : Preorder t seen [q] before)
      (hrest : ComesTo t (seen ++ before) rest files p) : ComesTo t seen (q :: rest) (before ++ files) p

/-- The error of a request that fails when the files in `seen` were taken. -/
inductive Fails (t : FileTree) (seen : List Path) (p : Path) : Job.Error → Prop
  | unfound {e : FileError} (hc : t.canonicalize p = .error e) : Fails t seen p (.unopened p e)
  | unopened {c : Path} {e : FileError} (hc : t.canonicalize p = .ok c) (hnew : ¬Taken seen c)
      (ho : t.openDocument c = .error e) : Fails t seen p (.unopened p e)
  | unread {c : Path} {document : Markup.Document} {e : UnitFile.Error} (hc : t.canonicalize p = .ok c)
      (hnew : ¬Taken seen c) (ho : t.openDocument c = .ok document) (hr : UnitFile.read document = .error e) :
      Fails t seen p (.unitFile c e)

theorem contents?_eq_some_iff {contents : UnitFile.Contents} : t.contents? c = some contents ↔
    ∃ document, t.openDocument c = .ok document ∧ UnitFile.read document = .ok contents := by
  unfold contents?
  cases ho : t.openDocument c with
  | error e => simp [Except.toOption]
  | ok document => cases hr : UnitFile.read document <;> simp [Except.toOption, hr]

theorem loadable_iff : t.Loadable p ↔ ∃ c, t.canonicalize p = .ok c ∧ ∃ document, t.openDocument c = .ok document ∧
    ∃ contents, UnitFile.read document = .ok contents := by
  simp only [Loadable, contents?_eq_some_iff]
  grind

theorem Preorder.append (h : t.Preorder seen requests files) {later : List Path}
    (h' : t.Preorder (seen ++ files) rest later) : t.Preorder seen (requests ++ rest) (files ++ later) := by
  induction h with
  | nil => simpa using h'
  | again hc hseen _ ih => exact .again hc hseen (ih h')
  | @first seen requests inner outer p c contents hc hnew hread hinner _ _ ihrest =>
    have hrest : t.Preorder (seen ++ c :: inner) (requests ++ rest) (outer ++ later) := ihrest (by simpa using h')
    have hall := Preorder.first hc hnew hread hinner hrest
    simpa using hall

namespace ComesTo

theorem append_cases (h : t.ComesTo seen (requests ++ rest) files p) :
    t.ComesTo seen requests files p ∨ ∃ before after, files = before ++ after ∧
      t.Preorder seen requests before ∧ t.ComesTo (seen ++ before) rest after p := by
  induction requests generalizing seen files with
  | nil => exact .inr ⟨[], files, rfl, .nil, by simpa using h⟩
  | cons q requests ih =>
    cases h with
    | here => exact .inl .here
    | inside hc hnew hread hinner => exact .inl (.inside hc hnew hread hinner)
    | @later _ _ before files _ _ hbefore hrest =>
      rcases ih hrest with hrest | ⟨middle, after, rfl, hmiddle, hafter⟩
      · exact .inl (.later hbefore hrest)
      · refine .inr ⟨before ++ middle, after, by simp, hbefore.append hmiddle, by simpa using hafter⟩

theorem loaded (h : t.ComesTo seen requests files p) :
    ∀ f ∈ files, (∃ q, t.canonicalize q = .ok f) ∧ ∃ contents, t.contents? f = some contents := by
  induction h with
  | here => simp
  | inside hc _ hread _ ih =>
    intro f hf
    rcases List.mem_cons.1 hf with rfl | hf
    · exact ⟨⟨_, hc⟩, _, hread⟩
    · exact ih f hf
  | later hbefore _ ih =>
    intro f hf
    rcases List.mem_append.1 hf with hf | hf
    · obtain ⟨hcanon, contents, hread, -⟩ := hbefore.taken.2 f hf
      exact ⟨hcanon, contents, hread⟩
    · exact ih f hf

theorem loadable_of_taken (ht : t.Named) (h : t.ComesTo seen requests files p) (hc : t.canonicalize p = .ok c)
    (htaken : Taken files c) : t.Loadable p := by
  obtain ⟨f, hf, heq⟩ := htaken
  obtain ⟨⟨q, hq⟩, contents, hread⟩ := h.loaded f hf
  obtain rfl := canonical_unique ht hq hc heq
  exact ⟨f, contents, hc, hread⟩

end ComesTo

end FileTree

namespace Job

variable {t : FileTree} {l fin : Loading} {p : Path} {requests rest inputs files : List Path} {n : Nat} {e : Error}

namespace Loading

theorem serve_eq_error_iff :
    l.serve t.canonicalize t.openDocument p rest = .error e ↔ t.Fails l.files.visited p e := by
  unfold serve VisitOnce.request
  constructor
  · intro h
    cases hc : t.canonicalize p with
    | error e' =>
      simp only [hc, Except.error.injEq] at h
      exact h ▸ .unfound hc
    | ok c =>
      by_cases hv : l.files.contains c = true
      · simp [hc, hv] at h
      · have hnew : ¬FileTree.Taken l.files.visited c := fun htaken ↦ hv (FileTree.contains_iff_taken.2 htaken)
        cases ho : t.openDocument c with
        | error e' =>
          simp only [hc, hv, ho, Bool.false_eq_true, if_false, Except.error.injEq] at h
          exact h ▸ .unopened hc hnew ho
        | ok document =>
          cases hr : UnitFile.read document with
          | error e' =>
            simp only [hc, hv, ho, hr, Bool.false_eq_true, if_false, Except.error.injEq] at h
            exact h ▸ .unread hc hnew ho hr
          | ok contents => simp [hc, hv, ho, hr] at h
  · rintro (hc | ⟨hc, hnew, ho⟩ | ⟨hc, hnew, ho, hr⟩)
    · simp [hc]
    · simp [hc, mt FileTree.contains_iff_taken.1 hnew, ho]
    · simp [hc, mt FileTree.contains_iff_taken.1 hnew, ho, hr]

theorem serve_of_taken {c : Path} (hc : t.canonicalize p = .ok c) (hseen : FileTree.Taken l.files.visited c) :
    l.serve t.canonicalize t.openDocument p rest = .ok { l with pending := rest } := by
  simp [serve, VisitOnce.request, hc, FileTree.contains_iff_taken.2 hseen]

theorem exists_serve_of_new {c : Path} {contents : UnitFile.Contents} (hc : t.canonicalize p = .ok c)
    (hnew : ¬FileTree.Taken l.files.visited c) (hread : t.contents? c = some contents) (rest : List Path) :
    ∃ l', l.serve t.canonicalize t.openDocument p rest = .ok l' ∧ l'.files.visited = l.files.visited ++ [c] ∧
      l'.pending = contents.imports.map (c.importing ⟨·⟩) ++ rest := by
  obtain ⟨l', hserve⟩ := exists_serve ⟨c, contents, hc, hread⟩ l rest
  obtain ⟨c', hc', ⟨hseen, -⟩ | ⟨-, contents', hread', hvisited, hpending, -⟩⟩ := serve_cases hserve
  · cases hc.symm.trans hc'
    exact absurd hseen hnew
  · cases hc.symm.trans hc'
    cases hread.symm.trans hread'
    exact ⟨l', hserve, hvisited, hpending⟩

theorem exists_run_of_preorder {seen : List Path} (h : t.Preorder seen requests files) (hseen : l.files.visited = seen)
    (hp : l.pending = requests ++ rest) :
    ∃ mid : Loading, l.run t = mid.run t ∧ mid.files.visited = seen ++ files ∧ mid.pending = rest := by
  induction h generalizing l rest with
  | nil => exact ⟨l, rfl, by simpa using hseen, hp⟩
  | again hc htaken _ ih =>
    subst hseen
    rw [run_of_ok hp (serve_of_taken hc htaken)]
    exact ih rfl rfl
  | @first seen requests inner outer p c contents hc hnew hread _ _ ihinner ihrest =>
    subst hseen
    obtain ⟨l', hserve, hvisited, hpending⟩ := exists_serve_of_new hc hnew hread (requests ++ rest)
    obtain ⟨mid, hrun, hmid, hmidPending⟩ := ihinner hvisited hpending
    obtain ⟨fin, hrun', hfin, hfinPending⟩ := ihrest (by simpa using hmid) hmidPending
    refine ⟨fin, ?_, by simpa using hfin, hfinPending⟩
    rw [run_of_ok hp hserve, hrun, hrun']

/-- Loading comes to where the preorder of its requests comes. -/
theorem exists_run_of_comesTo {seen : List Path} (h : t.ComesTo seen requests files p) (hseen : l.files.visited = seen)
    (hp : l.pending = requests ++ rest) :
    ∃ (mid : Loading) (later : List Path), l.run t = mid.run t ∧ mid.files.visited = seen ++ files ∧
      mid.pending = p :: later := by
  induction h generalizing l rest with
  | @here _ requests _ => exact ⟨l, requests ++ rest, rfl, by simpa using hseen, hp⟩
  | inside hc hnew hread _ ih =>
    subst hseen
    obtain ⟨l', hserve, hvisited, hpending⟩ := exists_serve_of_new hc hnew hread _
    obtain ⟨mid, later, hrun, hmid, hmidPending⟩ := ih hvisited hpending
    refine ⟨mid, later, ?_, by simpa using hmid, hmidPending⟩
    rw [run_of_ok hp hserve, hrun]
  | @later _ requests _ _ _ q hbefore _ ih =>
    have hp' : l.pending = [q] ++ (requests ++ rest) := hp
    obtain ⟨mid, hrun, hmid, hmidPending⟩ := exists_run_of_preorder hbefore hseen hp'
    obtain ⟨fin, later, hrun', hfin, hfinPending⟩ := ih hmid hmidPending
    exact ⟨fin, later, hrun.trans hrun', by simpa using hfin, hfinPending⟩

theorem Serves.exists_comesTo (h : Serves t n l fin) (hp : fin.pending = p :: rest) :
    ∃ files, t.ComesTo l.files.visited l.pending files p ∧ fin.files.visited = l.files.visited ++ files := by
  induction h with
  | refl =>
    rw [hp]
    exact ⟨[], .here, by simp⟩
  | @step n l l' fin q requests hq hserve _ ih =>
    obtain ⟨files, hcomes, hfin⟩ := ih hp
    rw [hq]
    obtain ⟨c, hc, ⟨hseen, rfl⟩ | ⟨hnew, contents, hread, hvisited, hpending, -⟩⟩ := serve_cases hserve
    · exact ⟨files, .later (.again hc hseen .nil) (by simpa using hcomes), hfin⟩
    · rw [hvisited, hpending] at hcomes
      rw [hvisited] at hfin
      refine ⟨c :: files, ?_, by simpa using hfin⟩
      -- The requests that follow the imports of the file at `c` come after all that is loaded from there.
      rcases hcomes.append_cases with hinner | ⟨before, after, rfl, hbefore, hafter⟩
      · exact .inside hc hnew hread hinner
      · have hfirst : t.Preorder l.files.visited [q] (c :: before ++ []) := .first hc hnew hread hbefore .nil
        rw [List.append_nil] at hfirst
        exact .later hfirst (by simpa using hafter)

end Loading

theorem load_eq_error_iff :
    (load t inputs).1 = .error e ↔ ∃ fin, Loading.run t { pending := inputs } = (some e, fin) := by
  unfold load
  split <;> next hrun => simp [hrun]

theorem exists_run_of_fails (hcomes : t.ComesTo [] inputs files p) (hfails : t.Fails files p e) :
    ∃ fin later, Loading.run t { pending := inputs } = (some e, fin) ∧ fin.files.visited = files ∧
      fin.pending = p :: later := by
  obtain ⟨fin, later, hrun, hvisited, hpending⟩ :=
    Loading.exists_run_of_comesTo (l := { pending := inputs }) hcomes rfl (List.append_nil inputs).symm
  rw [List.nil_append] at hvisited
  have hserve : fin.serve t.canonicalize t.openDocument p later = .error e :=
    Loading.serve_eq_error_iff.2 (hvisited ▸ hfails)
  exact ⟨fin, later, hrun.trans (Loading.run_of_error hpending hserve), hvisited, hpending⟩

theorem comesTo_unique {p' : Path} {files' : List Path} {e' : Error} (hcomes : t.ComesTo [] inputs files p)
    (hfails : t.Fails files p e) (hcomes' : t.ComesTo [] inputs files' p') (hfails' : t.Fails files' p' e') :
    files' = files ∧ p' = p := by
  obtain ⟨fin, later, hrun, rfl, hpending⟩ := exists_run_of_fails hcomes hfails
  obtain ⟨fin', later', hrun', rfl, hpending'⟩ := exists_run_of_fails hcomes' hfails'
  cases hrun.symm.trans hrun'
  cases hpending.symm.trans hpending'
  exact ⟨rfl, rfl⟩

theorem exists_comesTo_of_load (h : (load t inputs).1 = .error e) :
    ∃ files p, t.ComesTo [] inputs files p ∧ t.Fails files p e := by
  obtain ⟨fin, hrun⟩ := load_eq_error_iff.1 h
  obtain ⟨n, fin', hserves, -, ⟨-, hend⟩ | ⟨p, rest, e', hp, hserve, hend⟩⟩ :=
    Loading.exists_serves (t := t) { pending := inputs }
  · cases hend.symm.trans hrun
  · cases hend.symm.trans hrun
    obtain ⟨files, hcomes, hvisited⟩ := hserves.exists_comesTo hp
    rw [Loading.serve_eq_error_iff, hvisited] at hserve
    exact ⟨files, p, hcomes, hserve⟩

/-- Loading fails with the error of the first request, in depth-first preorder, that fails, and there is one such request
at most; none fails for a file that was loaded before. Loading succeeds just if each path that is requested leads to a
file that can be opened and read. -/
theorem load_fails_at_first_failing_request (t : FileTree) (inputs : List Path) :
    (∀ e, (load t inputs).1 = .error e ↔ ∃ files p, t.ComesTo [] inputs files p ∧ t.Fails files p e) ∧
      (∀ files p e files' p' e', t.ComesTo [] inputs files p → t.Fails files p e →
        t.ComesTo [] inputs files' p' → t.Fails files' p' e' → files' = files ∧ p' = p) ∧
      (t.Named →
        ((∃ units, (load t inputs).1 = .ok units) ↔ ∀ p, t.Requested inputs p →
          ∃ c, t.canonicalize p = .ok c ∧ ∃ document, t.openDocument c = .ok document ∧
            ∃ contents, UnitFile.read document = .ok contents) ∧
        ∀ files p c, t.ComesTo [] inputs files p → t.canonicalize p = .ok c → FileTree.Taken files c →
          ∃ document, t.openDocument c = .ok document ∧ ∃ contents, UnitFile.read document = .ok contents) := by
  refine ⟨fun e ↦ ⟨exists_comesTo_of_load, ?_⟩, fun _ _ _ _ _ _ ↦ comesTo_unique,
    fun ht ↦ ⟨?_, fun files p c hcomes hc htaken ↦ ?_⟩⟩
  · rintro ⟨files, p, hcomes, hfails⟩
    obtain ⟨fin, -, hrun, -⟩ := exists_run_of_fails hcomes hfails
    exact load_eq_error_iff.2 ⟨fin, hrun⟩
  · rw [exists_load_iff ht]
    exact forall₂_congr fun p _ ↦ FileTree.loadable_iff
  · obtain ⟨c', hc', hopen⟩ := FileTree.loadable_iff.1 (hcomes.loadable_of_taken ht hc htaken)
    cases hc.symm.trans hc'
    exact hopen

namespace Dangling

def tree : FileTree :=
  { entries :=
      [(["d"], .dir), (["d", "a"], Ring.unitFile "a" ["b", "../c"]),
        (["d", "b"], Ring.unitFile "b" ["./a", "../gone"]), (["c"], .file (Text.encode "<other/>"))]
    current := ["d"] }

def paths : List Path := [⟨"../d/a"⟩, ⟨"/c"⟩]

theorem named : tree.Named := List.forall_mem_singleton.2 (by simp [Path.IsStep, Path.isIdle])

theorem read_a : tree.contents? ⟨"/d/a"⟩ = some { units := [{ name := "a" }], imports := ["b", "../c"] } := by
  decide +kernel

theorem read_b : tree.contents? ⟨"/d/b"⟩ = some { units := [{ name := "b" }], imports := ["./a", "../gone"] } := by
  decide +kernel

theorem comes_below_b {p : Path}
    (h : tree.ComesTo [⟨"/d/a"⟩, ⟨"/d/b"⟩] [⟨"/d/./a"⟩, ⟨"/d/../gone"⟩] [] p) :
    tree.ComesTo [] paths [⟨"/d/a"⟩, ⟨"/d/b"⟩] p := by
  have ha : tree.canonicalize ⟨"../d/a"⟩ = .ok ⟨"/d/a"⟩ := rfl
  have hb : tree.canonicalize (Path.importing ⟨"/d/a"⟩ ⟨"b"⟩) = .ok ⟨"/d/b"⟩ := rfl
  have hnew : ¬FileTree.Taken [⟨"/d/a"⟩] ⟨"/d/b"⟩ := by
    simp only [FileTree.Taken, List.mem_singleton, exists_eq_left]
    decide
  exact .inside ha (by simp [FileTree.Taken]) read_a (.inside hb hnew read_b h)

theorem a_is_taken : FileTree.Taken [⟨"/d/a"⟩, ⟨"/d/b"⟩] ⟨"/d/a"⟩ := ⟨⟨"/d/a"⟩, by simp, rfl⟩

theorem canonicalize_a : tree.canonicalize ⟨"/d/./a"⟩ = .ok ⟨"/d/a"⟩ := rfl

theorem first_to_fail_is_gone :
    tree.Named ∧ (load tree paths).1 = .error (.unopened ⟨"/d/../gone"⟩ .notFound) ∧
      (¬∀ p, tree.Requested paths p → ∃ c, tree.canonicalize p = .ok c ∧ ∃ document,
        tree.openDocument c = .ok document ∧ ∃ contents, UnitFile.read document = .ok contents) ∧
      ∃ document, tree.openDocument ⟨"/d/a"⟩ = .ok document ∧ ∃ contents, UnitFile.read document = .ok contents := by
  obtain ⟨herror, -, hnamed⟩ := load_fails_at_first_failing_request tree paths
  obtain ⟨hok, htaken⟩ := hnamed named
  have hgone : tree.ComesTo [] paths [⟨"/d/a"⟩, ⟨"/d/b"⟩] ⟨"/d/../gone"⟩ :=
    comes_below_b (.later (.again canonicalize_a a_is_taken .nil) .here)
  have hload := (herror _).2 ⟨_, _, hgone, .unfound rfl⟩
  refine ⟨named, hload, ?_, htaken _ _ _ (comes_below_b .here) canonicalize_a a_is_taken⟩
  intro hall
  obtain ⟨units, hunits⟩ := hok.2 hall
  cases hload.symm.trans hunits

end Dangling

end Job

end LinkOrder
