import LinkOrder.File.Tree
import LinkOrder.File.VisitOnce
import LinkOrder.Job.Error
import LinkOrder.Log
import LinkOrder.UnitFile.Contents

namespace LinkOrder

/-- The markup of an entry. A directory can be opened but not read. -/
def Entry.document : Entry → Markup.Document
  | file content => .ofFile content
  | dir => .unreadable .isDirectory

namespace Job

/-- Loading under way: the files opened, the paths still to be loaded, and the units so far. -/
structure Loading where
  files : VisitOnce := {}
  pending : List Path
  units : List LinkUnit := []
  log : List LogLine := []

def loadedLine (path : Path) (contents : UnitFile.Contents) : LogLine :=
  ⟨.debug, s!"`{path.text}`: {contents.units.length} unit(s), {contents.imports.length} import(s)"⟩

def Loading.serve (l : Loading) (canonicalize : Path → Except FileError Path)
    (openFile : Path → Except FileError Markup.Document) (p : Path) (rest : List Path) :
    Except Error Loading :=
  match l.files.request canonicalize openFile p with
  | (.error e, _) => .error (.unopened p e)
  | (.ok .again, _) => .ok { l with pending := rest }
  | (.ok (.first path document), files) =>
    match UnitFile.read document with
    | .error e => .error (.unitFile path e)
    | .ok contents =>
      .ok { files
            pending := contents.imports.map (path.importing ⟨·⟩) ++ rest
            units := l.units ++ contents.units
            log := l.log ++ [loadedLine path contents] }

def Loading.summary (l : Loading) : LogLine :=
  ⟨.debug, s!"loaded {l.units.length} unit(s) from {l.files.visited.length} file(s)"⟩

end Job

namespace FileTree

def openDocument (t : FileTree) (p : Path) : Except FileError Markup.Document :=
  (t.openEntry p).map Entry.document

def paths (t : FileTree) : List Path := absolute [] :: t.entries.map (absolute ·.1)

def importCount (t : FileTree) (p : Path) : Nat :=
  match t.openDocument p with
  | .error _ => 0
  | .ok document => ((UnitFile.read document).toOption.map (·.imports.length)).getD 0

/-- How many imports are still to come from files that were not opened yet. -/
def unseenImports (t : FileTree) (files : VisitOnce) : Nat :=
  (t.paths.filter (!files.contains ·)).foldr (t.importCount · + ·) 0

theorem get?_of_locate {t : FileTree} {names : List String} {parts : List (List Char)}
    {found : List String × Entry} (h : t.locate names parts = .ok found) :
    t.get? found.1 = some found.2 := by
  induction parts generalizing names with
  | nil =>
    unfold locate at h
    split at h
    · cases h
    · next he =>
      cases h
      exact he
  | cons part parts ih =>
    unfold locate at h
    split at h
    · cases h
    · cases h
    · split at h
      · exact ih h
      · split at h
        · exact ih h
        · split at h
          · cases h
          · exact ih h

theorem get?_of_resolve {t : FileTree} {names found : List String} {parts : List (List Char)}
    (h : t.resolve names parts = .ok found) : ∃ entry, t.get? found = some entry := by
  induction parts generalizing names with
  | nil =>
    unfold resolve at h
    cases hl : t.locate names [] with
    | error e =>
      rw [hl] at h
      cases h
    | ok there =>
      rw [hl] at h
      cases h
      exact ⟨there.2, get?_of_locate hl⟩
  | cons part parts ih =>
    unfold resolve at h
    split at h
    · exact ih h
    · split at h
      · exact ih h
      · dsimp only at h
        split at h
        · cases h
        · split at h
          · cases h
          · exact ih h

theorem absolute_mem_paths {t : FileTree} {names : List String} {entry : Entry}
    (h : t.get? names = some entry) : absolute names ∈ t.paths := by
  unfold get? at h
  split at h
  · next hn =>
    rw [hn]
    exact List.mem_cons_self
  · obtain ⟨before, after, he, _⟩ := List.lookup_eq_some_iff.1 h
    refine List.mem_cons_of_mem _ (List.mem_map.2 ⟨(names, entry), ?_, rfl⟩)
    rw [he]
    exact List.mem_append_right _ List.mem_cons_self

theorem canonicalize_mem_paths {t : FileTree} {p c : Path} (h : t.canonicalize p = .ok c) :
    c ∈ t.paths := by
  unfold canonicalize at h
  split at h
  · cases h
  · cases hr : t.resolve (t.start p) (Path.splitSlash p.text.toList) with
    | error e =>
      rw [hr] at h
      cases h
    | ok found =>
      rw [hr] at h
      cases h
      obtain ⟨entry, he⟩ := get?_of_resolve hr
      exact absolute_mem_paths he

theorem sum_filter_le {α : Type} {p q : α → Bool} (f : α → Nat) {l : List α}
    (hqp : ∀ x, q x → p x) : (l.filter q).foldr (f · + ·) 0 ≤ (l.filter p).foldr (f · + ·) 0 := by
  induction l with
  | nil => exact Nat.le_refl 0
  | cons b l ih =>
    by_cases hq : q b
    · rw [List.filter_cons_of_pos hq, List.filter_cons_of_pos (hqp b hq)]
      exact Nat.add_le_add_left ih _
    · rw [List.filter_cons_of_neg hq]
      by_cases hp : p b
      · rw [List.filter_cons_of_pos hp]
        exact Nat.le_trans ih (Nat.le_add_left _ _)
      · rwa [List.filter_cons_of_neg hp]

theorem add_sum_filter_le {α : Type} {p q : α → Bool} (f : α → Nat) {l : List α} {a : α}
    (hqp : ∀ x, q x → p x) (ha : a ∈ l) (hp : p a) (hq : ¬q a) :
    f a + (l.filter q).foldr (f · + ·) 0 ≤ (l.filter p).foldr (f · + ·) 0 := by
  induction l with
  | nil => cases ha
  | cons b l ih =>
    rcases List.mem_cons.1 ha with rfl | hmem
    · rw [List.filter_cons_of_pos hp, List.filter_cons_of_neg hq]
      exact Nat.add_le_add_left (sum_filter_le f hqp) _
    · have hle := ih hmem
      by_cases hb : q b
      · rw [List.filter_cons_of_pos hb, List.filter_cons_of_pos (hqp b hb)]
        simp only [List.foldr_cons]
        omega
      · rw [List.filter_cons_of_neg hb]
        by_cases hpb : p b
        · rw [List.filter_cons_of_pos hpb]
          exact Nat.le_trans hle (Nat.le_add_left _ _)
        · rwa [List.filter_cons_of_neg hpb]

theorem unseenImports_le {t : FileTree} {files : VisitOnce} {c : Path} (hc : c ∈ t.paths)
    (h : files.contains c = false) :
    t.importCount c + t.unseenImports ⟨files.visited ++ [c]⟩ ≤ t.unseenImports files := by
  refine add_sum_filter_le _ (fun x hx ↦ ?_) hc ?_ ?_
  · simp only [VisitOnce.contains, List.any_append, Bool.not_or, Bool.and_eq_true] at hx
    exact hx.1
  · simp [h]
  · simp [VisitOnce.contains]

end FileTree

namespace Job

def Loading.weight (t : FileTree) (l : Loading) : Nat :=
  t.unseenImports l.files + l.pending.length

theorem Loading.weight_serve_lt {t : FileTree} {l l' : Loading} {p : Path} {rest : List Path}
    (hp : l.pending = p :: rest) (h : l.serve t.canonicalize t.openDocument p rest = .ok l') :
    l'.weight t < l.weight t := by
  unfold weight
  rw [hp]
  unfold serve VisitOnce.request at h
  cases hc : t.canonicalize p with
  | error e => simp [hc] at h
  | ok c =>
    by_cases hv : l.files.contains c = true
    · simp only [hc, hv, if_true, Except.ok.injEq] at h
      subst h
      exact Nat.add_lt_add_left (Nat.lt_succ_self _) _
    · have hv : l.files.contains c = false := by simpa using hv
      have hle := FileTree.unseenImports_le (FileTree.canonicalize_mem_paths hc) hv
      cases ho : t.openDocument c with
      | error e => simp [hc, hv, ho] at h
      | ok document =>
        simp only [hc, hv, ho, Bool.false_eq_true, if_false] at h
        split at h
        · cases h
        · next contents hr =>
          cases h
          have hi : t.importCount c = contents.imports.length := by
            simp [FileTree.importCount, ho, hr, Except.toOption]
          simp only [List.length_append, List.length_map, List.length_cons]
          omega

def Loading.run (t : FileTree) (l : Loading) : Option Error × Loading :=
  match hp : l.pending with
  | [] => (none, l)
  | p :: rest =>
    match h : l.serve t.canonicalize t.openDocument p rest with
    | .error e => (some e, l)
    | .ok l' =>
      have := weight_serve_lt hp h
      l'.run t
termination_by l.weight t

theorem Loading.run_of_nil {t : FileTree} {l : Loading} (hp : l.pending = []) :
    l.run t = (none, l) := by
  rw [run]
  split
  · rfl
  · next heq =>
    rw [hp] at heq
    cases heq

theorem Loading.run_of_error {t : FileTree} {l : Loading} {p : Path} {rest : List Path} {e : Error}
    (hp : l.pending = p :: rest) (h : l.serve t.canonicalize t.openDocument p rest = .error e) :
    l.run t = (some e, l) := by
  rw [run]
  split <;> rename_i heq <;> rw [hp] at heq <;> cases heq
  split <;> rename_i heq <;> rw [h] at heq <;> cases heq
  rfl

theorem Loading.run_of_ok {t : FileTree} {l l' : Loading} {p : Path} {rest : List Path}
    (hp : l.pending = p :: rest) (h : l.serve t.canonicalize t.openDocument p rest = .ok l') :
    l.run t = l'.run t := by
  rw [run]
  split <;> rename_i heq <;> rw [hp] at heq <;> cases heq
  split <;> rename_i heq <;> rw [h] at heq <;> cases heq
  rfl

/-- The units of the inputs and of all they import, with what was logged. -/
def load (t : FileTree) (inputs : List Path) : Except Error (List LinkUnit) × List LogLine :=
  match Loading.run t { pending := inputs } with
  | (some e, l) => (.error e, l.log)
  | (none, l) => (.ok l.units, l.log ++ [l.summary])

end Job

end LinkOrder
