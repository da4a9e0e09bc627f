import LinkOrder.Job.Basic
import LinkOrder.Proofs.Encoding

namespace LinkOrder

open Text

namespace Disk

/-- A file at that place takes all of it. -/
def Takes (disk : Disk) (names : List String) (content : Bytes) : Prop :=
  ∀ l ∈ disk.limit names, content.length ≤ l.room

end Disk

namespace Sink

theorem put_cases (limit : Option Limit) (taken bytes : Bytes) :
    (∀ l ∈ limit, (taken ++ bytes).length ≤ l.room) ∧ put ⟨taken, limit⟩ bytes = (none, ⟨taken ++ bytes, limit⟩) ∨
      ∃ l, limit = some l ∧ l.room < (taken ++ bytes).length ∧
        put ⟨taken, limit⟩ bytes = (some l.error, ⟨(taken ++ bytes).take l.room, limit⟩) := by
  cases limit with
  | none => exact .inl ⟨by simp, rfl⟩
  | some l =>
    unfold put
    by_cases h : taken.length + bytes.length ≤ l.room
    · exact .inl ⟨by simpa using h, if_pos h⟩
    · exact .inr ⟨l, rfl, by simpa using h, if_neg h⟩

theorem putAll_cases (limit : Option Limit) (taken : Bytes) (h : ∀ l ∈ limit, taken.length ≤ l.room)
    (pieces : List Bytes) :
    (∀ l ∈ limit, (taken ++ pieces.flatten).length ≤ l.room) ∧
        putAll ⟨taken, limit⟩ pieces = (none, ⟨taken ++ pieces.flatten, limit⟩) ∨
      ∃ l, limit = some l ∧ l.room < (taken ++ pieces.flatten).length ∧
        putAll ⟨taken, limit⟩ pieces = (some l.error, ⟨(taken ++ pieces.flatten).take l.room, limit⟩) := by
  induction pieces generalizing taken with
  | nil =>
    rw [List.flatten_nil, List.append_nil]
    exact .inl ⟨h, rfl⟩
  | cons piece pieces ih =>
    rw [List.flatten_cons, ← List.append_assoc]
    rcases put_cases limit taken piece with ⟨hfits, hput⟩ | ⟨l, rfl, hroom, hput⟩
    · simpa only [putAll, hput] using ih _ hfits
    · refine .inr ⟨l, rfl, ?_, ?_⟩
      · rw [List.length_append]
        omega
      · simp only [putAll, hput, List.take_append_of_le_length (Nat.le_of_lt hroom)]

end Sink

theorem flatten_buffered (size : Nat) (pending : Bytes) (pieces : List Bytes) :
    (buffered size pending pieces).1.flatten ++ (buffered size pending pieces).2 = pending ++ pieces.flatten := by
  induction pieces generalizing pending with
  | nil => simp [buffered]
  | cons piece pieces ih =>
    simp only [buffered, List.flatten_cons]
    by_cases hfull : size < pending.length + piece.length <;> by_cases hlong : size ≤ piece.length
    · simp [if_pos hfull, if_pos hlong, ih]
    · simp [if_pos hfull, if_neg hlong, ih]
    · have hnil : pending = [] := List.eq_nil_of_length_eq_zero (by omega)
      simp only [if_neg hfull, if_pos hlong]
      simp [hnil, ih]
    · simp [if_neg hfull, if_neg hlong, ih]

namespace Markup

theorem join_pieces_line (l : Line) : String.join l.pieces = l.print := by
  cases l <;> simp [Line.pieces, Line.print, String.append_assoc, toString]

theorem join_pieces_false (depth : Nat) (lines : List Line) :
    String.join (pieces false depth lines) = String.join ((printLines depth lines).map ("\n" ++ ·)) := by
  induction lines generalizing depth with
  | nil => rfl
  | cons l lines ih => simp [pieces, printLines, String.join_append, join_pieces_line, ih, String.append_assoc]

theorem intercalate_cons (separator first : String) (rest : List String) :
    separator.intercalate (first :: rest) = first ++ String.join (rest.map (separator ++ ·)) := by
  induction rest generalizing first with
  | nil => simp
  | cons s rest ih => simp [String.intercalate_cons_of_ne_nil, ih, String.append_assoc]

theorem join_pieces (lines : List Line) : String.join (pieces true 0 lines) = print lines := by
  cases lines with
  | nil => rfl
  | cons l lines =>
    have hown : indentation (l.depths 0).1 = "" := by cases l <;> rfl
    simp [pieces, print, printLines, intercalate_cons, join_pieces_line, join_pieces_false, hown]

end Markup

namespace FileTree

variable {t : FileTree} {p : Path} {names found target other out : List String} {parts : List (List Char)}
  {entry : Entry}

theorem get?_set_self (h : names ≠ []) (t : FileTree) (entry : Entry) :
    (t.set names entry).get? names = some entry := by
  have hnone : (t.entries.filter (·.1 ≠ names)).lookup names = none := by
    apply List.lookup_eq_none_iff.2
    intro e he
    have hne : e.1 ≠ names := by simpa using (List.mem_filter.1 he).2
    simpa using Ne.symm hne
  unfold get? set
  rw [if_neg h, List.lookup_append, hnone]
  simp

theorem get?_set_of_ne (h : other ≠ names) : (t.set names entry).get? other = t.get? other := by
  have hlookup (l : List (List String × Entry)) : (l.filter (·.1 ≠ names)).lookup other = l.lookup other := by
    induction l with
    | nil => rfl
    | cons e l ih =>
      by_cases he : e.1 = names
      · have hother : (other == e.1) = false := by simpa [he] using h
        rw [List.filter_cons_of_neg (by simpa using he), ih, List.lookup_cons, hother]
      · rw [List.filter_cons_of_pos (by simpa using he), List.lookup_cons, List.lookup_cons, ih]
  have hother : (other == names) = false := by simpa using h
  unfold get? set
  split
  · rfl
  · rw [List.lookup_append, hlookup, List.lookup_cons, hother]
    simp

theorem get?_set_eq_dir_iff {content : Text.Bytes} (hout : t.get? out ≠ some .dir) :
    (t.set out (.file content)).get? names = some .dir ↔ t.get? names = some .dir := by
  by_cases heq : names = out
  · subst heq
    have hne : names ≠ [] := by
      rintro rfl
      exact hout rfl
    simp [get?_set_self hne, hout]
  · rw [get?_set_of_ne heq]

theorem locate_of_dirs {t' : FileTree} (hdirs : ∀ names, t.get? names = some .dir → t'.get? names = some .dir)
    (h : t.locate names parts = .ok (found, .dir)) : t'.locate names parts = .ok (found, .dir) := by
  induction parts generalizing names with
  | nil =>
    unfold locate at h ⊢
    split at h
    · cases h
    · next he =>
      cases h
      rw [hdirs _ he]
  | cons part parts ih =>
    unfold locate at h ⊢
    split at h
    · cases h
    · cases h
    · next he =>
      simp only [hdirs _ he]
      split at h
      · next hidle => rw [if_pos hidle, ih h]
      · next hidle =>
        rw [if_neg hidle]
        split at h
        · next hup => rw [if_pos hup, ih h]
        · next hup =>
          rw [if_neg hup]
          split at h
          · cases h
          · next hsize => rw [if_neg hsize, ih h]

theorem destination_eq_ok_iff : t.destination p = .ok target ↔
    checkPath p = .ok () ∧ ∃ last before names,
      (Path.splitSlash p.text.toList).reverse.dropWhile (· = []) = last :: before ∧
      t.locate (t.start p) before.reverse = .ok (names, .dir) ∧
      ¬(last = ['.'] ∨ last = ['.', '.'] ∨ (Path.splitSlash p.text.toList).reverse.head? = some []) ∧
      ¬255 < (String.ofList last).utf8ByteSize ∧ target = names ++ [String.ofList last] ∧
      t.get? target ≠ some .dir := by
  unfold destination
  constructor
  · intro h
    cases hcheck : checkPath p with
    | error e =>
      rw [hcheck] at h
      cases h
    | ok u =>
      rw [hcheck] at h
      cases hparts : (Path.splitSlash p.text.toList).reverse.dropWhile (· = []) with
      | nil =>
        simp only [hparts] at h
        cases h
      | cons last before =>
        simp only [hparts] at h
        cases hl : t.locate (t.start p) before.reverse with
        | error e =>
          rw [hl] at h
          cases h
        | ok there =>
          obtain ⟨names, entry⟩ := there
          rw [hl] at h
          cases entry with
          | file content => cases h
          | dir =>
            refine ⟨rfl, last, before, names, rfl, hl, ?_⟩
            dsimp only [bind, Except.bind] at h
            split at h
            · cases h
            · next hlast =>
              split at h
              · cases h
              · next hsize =>
                split at h
                · cases h
                · next htarget =>
                  cases h
                  exact ⟨hlast, hsize, rfl, htarget⟩
  · rintro ⟨hcheck, last, before, names, hparts, hl, hlast, hsize, rfl, htarget⟩
    simp only [hcheck, hparts, hl, bind, Except.bind, if_neg hlast, if_neg hsize]
    rfl

theorem get?_ne_dir_of_destination (h : t.destination p = .ok target) : t.get? target ≠ some .dir := by
  obtain ⟨-, _, _, _, -, -, -, -, -, htarget⟩ := destination_eq_ok_iff.1 h
  exact htarget

theorem ne_nil_of_destination (h : t.destination p = .ok target) : target ≠ [] := by
  obtain ⟨-, _, _, _, -, -, -, -, rfl, -⟩ := destination_eq_ok_iff.1 h
  simp

theorem destination_of_dirs {t' : FileTree} (hcurrent : t'.current = t.current)
    (hdirs : ∀ names, t'.get? names = some .dir ↔ t.get? names = some .dir) (h : t.destination p = .ok target) :
    t'.destination p = .ok target := by
  obtain ⟨hcheck, last, before, names, hparts, hl, hlast, hsize, rfl, htarget⟩ := destination_eq_ok_iff.1 h
  have hstart : t'.start p = t.start p := by
    unfold start
    rw [hcurrent]
  refine destination_eq_ok_iff.2 ⟨hcheck, last, before, names, hparts, ?_, hlast, hsize, rfl, mt (hdirs _).1 htarget⟩
  rw [hstart]
  exact locate_of_dirs (fun names ↦ (hdirs names).2) hl

/-- Where a path leads to be written does not depend on the files that are there. -/
theorem destination_set_iff {content : Text.Bytes} (hout : t.get? out ≠ some .dir) :
    (t.set out (.file content)).destination p = .ok target ↔ t.destination p = .ok target :=
  ⟨destination_of_dirs rfl fun _ ↦ (get?_set_eq_dir_iff hout).symm,
    destination_of_dirs rfl fun _ ↦ get?_set_eq_dir_iff hout⟩

theorem set_set (t : FileTree) (names : List String) (entry entry' : Entry) :
    (t.set names entry).set names entry' = t.set names entry' := by
  simp [set, List.filter_append, List.filter_filter]

theorem create_of_destination {disk : Disk} (h : t.destination p = .ok out) (hout : disk.refused out = none) :
    t.create disk p = .ok (out, t.set out (.file [])) := by
  simp only [create, h, bind, Except.bind, hout]
  rfl

end FileTree

namespace Artifact

def content (a : Artifact) : Bytes := a.printed.flatten ++ a.last

/-- How it is told that a file could not be written in full. -/
def fault (a : Artifact) (l : Limit) : Job.Error :=
  if l.room < a.printed.flatten.length then .report (.markup (.io l.error)) else .io l.error

theorem write_cases (a : Artifact) (limit : Option Limit) :
    (∀ l ∈ limit, a.content.length ≤ l.room) ∧ a.write { limit } = (none, ⟨a.content, limit⟩) ∨
      ∃ l, limit = some l ∧ l.room < a.content.length ∧
        a.write { limit } = (some (a.fault l), ⟨a.content.take l.room, limit⟩) := by
  unfold write content fault
  rcases Sink.putAll_cases limit [] (by simp) a.printed with
    ⟨hfits, hprinted⟩ | ⟨l, rfl, hroom, hprinted⟩
  · rw [List.nil_append] at hfits hprinted
    rcases Sink.put_cases limit a.printed.flatten a.last with ⟨hfits', hlast⟩ | ⟨l, rfl, hroom, hlast⟩
    · exact .inl ⟨hfits', by simp only [hprinted, hlast, Option.map_none]⟩
    · have hprinted' : ¬l.room < a.printed.flatten.length := by
        have := hfits l rfl
        omega
      exact .inr ⟨l, rfl, hroom, by simp only [hprinted, hlast, if_neg hprinted', Option.map_some]⟩
  · rw [List.nil_append] at hroom hprinted
    refine .inr ⟨l, rfl, ?_, ?_⟩
    · rw [List.length_append]
      omega
    · simp only [hprinted, if_pos hroom, List.take_append_of_le_length (Nat.le_of_lt hroom)]

end Artifact

theorem State.flatten_reportPieces (s : State) : s.reportPieces.flatten = encode s.report := by
  rw [reportPieces, ← List.flatMap_def, ← encode_join, Markup.join_pieces, report]

theorem State.reportWithin_eq (s : State) (limit : Nat) :
    s.reportWithin limit =
      if (encode s.report).length ≤ limit then .ok (limit - (encode s.report).length)
      else .error (.markup (.io (.other "failed to write whole buffer"))) := by
  unfold reportWithin
  rcases Sink.putAll_cases (some ⟨limit, .other "failed to write whole buffer"⟩) [] (by simp) s.reportPieces with
    ⟨hfits, hput⟩ | ⟨l, hl, hroom, hput⟩
  · rw [List.nil_append, flatten_reportPieces] at hfits hput
    rw [hput, if_pos (hfits _ rfl)]
  · cases hl
    rw [List.nil_append, flatten_reportPieces] at hroom
    rw [hput, if_neg (by simpa using hroom)]

namespace Job

variable {t : FileTree} {disk : Disk} {job : Job} {units : List LinkUnit} {o : Outcome}

/-- A job fails before it writes anything, or else it writes what it linked. -/
theorem run_cases (job : Job) (t : FileTree) (disk : Disk) :
    (∃ e log, (load t job.inputs).1 = .error e ∧ job.run t disk = ⟨.error e, log, t⟩) ∨
      ∃ units, (load t job.inputs).1 = .ok units ∧
        ((∃ e log, job.link units = .error e ∧ job.run t disk = ⟨.error (.link e), log, t⟩) ∨
          ∃ o log, job.link units = .ok o ∧ job.run t disk = writeAll disk t log (job.artifacts o)) := by
  unfold run
  split
  · next e log hload => exact .inl ⟨e, log, by rw [hload], rfl⟩
  · next units log hload =>
    refine .inr ⟨units, by rw [hload], ?_⟩
    split
    · next e hlink => exact .inl ⟨e, log, hlink, rfl⟩
    · next o hlink => exact .inr ⟨o, _, hlink, rfl⟩

theorem run_of_load_error {e : Error} (h : (load t job.inputs).1 = .error e) (disk : Disk) :
    ∃ log, job.run t disk = ⟨.error e, log, t⟩ := by
  obtain ⟨e', log, he, hrun⟩ | ⟨units, hload, -⟩ := run_cases job t disk
  · cases h.symm.trans he
    exact ⟨log, hrun⟩
  · cases h.symm.trans hload

theorem run_of_link_error {e : LinkError} (h : (load t job.inputs).1 = .ok units) (he : job.link units = .error e)
    (disk : Disk) : ∃ log, job.run t disk = ⟨.error (.link e), log, t⟩ := by
  obtain ⟨e', log, hload, -⟩ | ⟨units', hload, ⟨e', log, hlink, hrun⟩ | ⟨o, log, hlink, -⟩⟩ := run_cases job t disk <;>
    cases h.symm.trans hload <;> cases he.symm.trans hlink
  exact ⟨log, hrun⟩

theorem run_of_link (h : (load t job.inputs).1 = .ok units) (ho : job.link units = .ok o) (disk : Disk) :
    ∃ log, job.run t disk = writeAll disk t log (job.artifacts o) := by
  obtain ⟨e', log, hload, -⟩ | ⟨units', hload, ⟨e', log, hlink, -⟩ | ⟨o', log, hlink, hrun⟩⟩ := run_cases job t disk <;>
    cases h.symm.trans hload <;> cases ho.symm.trans hlink
  exact ⟨log, hrun⟩

section

variable {a : Artifact} {out : List String}

theorem writeAll_of_takes (h : t.create disk a.path = .ok (out, t.set out (.file [])))
    (htakes : disk.Takes out a.content) (log : List LogLine) (l : List Artifact) :
    writeAll disk t log (a :: l) = writeAll disk (t.set out (.file a.content)) (log ++ [a.note]) l := by
  rcases a.write_cases (disk.limit out) with ⟨-, hwrite⟩ | ⟨lim, hlim, hroom, -⟩
  · simp only [writeAll, h, hwrite, FileTree.set_set]
  · have := htakes lim hlim
    omega

end

theorem writeAll_congr (disk : Disk) (t : FileTree) (log log' : List LogLine) (l : List Artifact) :
    (writeAll disk t log l).result = (writeAll disk t log' l).result ∧
      (writeAll disk t log l).tree = (writeAll disk t log' l).tree := by
  induction l generalizing t log log' with
  | nil => exact ⟨rfl, rfl⟩
  | cons a l ih =>
    unfold writeAll
    split
    · exact ⟨rfl, rfl⟩
    · dsimp only
      split
      · exact ⟨rfl, rfl⟩
      · exact ih _ _ _

theorem content_outputArtifact (job : Job) (o : Outcome) :
    (job.outputArtifact o).content = encode (job.outputText o) := rfl

theorem content_reportArtifact (s : State) (path : Path) : (reportArtifact s path).content = encode s.report := by
  unfold reportArtifact Artifact.content
  rw [flatten_buffered, List.nil_append, State.flatten_reportPieces]

theorem writeAll_artifacts {out : List String} (hout : t.destination job.output = .ok out)
    (hreport : ∀ path ∈ job.report, ∃ rep, t.destination path = .ok rep ∧ rep ≠ out) (log : List LogLine)
    (o : Outcome) :
    (writeAll {} t log (job.artifacts o)).result = .ok () ∧
      (writeAll {} t log (job.artifacts o)).tree.get? out = some (.file (encode (job.outputText o))) ∧
      ∀ path ∈ job.report, ∃ rep, t.destination path = .ok rep ∧
        (writeAll {} t log (job.artifacts o)).tree.get? rep = some (.file (encode o.state.report)) := by
  have hcreate : t.create {} (job.outputArtifact o).path = _ := FileTree.create_of_destination hout rfl
  have hself := FileTree.get?_set_self (FileTree.ne_nil_of_destination hout) t (.file (encode (job.outputText o)))
  unfold artifacts
  rw [writeAll_of_takes hcreate (by simp [Disk.Takes]), content_outputArtifact]
  cases hr : job.report with
  | none => simpa [writeAll] using hself
  | some path =>
    obtain ⟨rep, hrep, hne⟩ := hreport path hr
    have hrep' : (t.set out (.file (encode (job.outputText o)))).destination path = .ok rep :=
      (FileTree.destination_set_iff (FileTree.get?_ne_dir_of_destination hout)).2 hrep
    have hcreate' : FileTree.create _ {} (reportArtifact o.state path).path = _ :=
      FileTree.create_of_destination hrep' rfl
    have hself' := FileTree.get?_set_self (FileTree.ne_nil_of_destination hrep)
      (t.set out (.file (encode (job.outputText o)))) (.file (encode o.state.report))
    rw [Option.map_some, Option.toList_some, writeAll_of_takes hcreate' (by simp [Disk.Takes]), content_reportArtifact]
    simp [writeAll, hrep, hself', FileTree.get?_set_of_ne hne.symm, hself]

end Job

end LinkOrder
