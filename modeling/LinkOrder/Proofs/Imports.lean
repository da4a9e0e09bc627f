import LinkOrder.Job.Load
import LinkOrder.Proofs.Paths
import Mathlib.Logic.Relation

namespace LinkOrder

open Relation

namespace FileTree

variable {t : FileTree} {p c c' d : Path} {requests inputs seen files : List Path}
  {contents contents' : UnitFile.Contents}

def contents? (t : FileTree) (p : Path) : Option UnitFile.Contents :=
  (t.openDocument p).toOption.bind fun document ↦ (UnitFile.read document).toOption

def unitsOf (t : FileTree) (p : Path) : List LinkUnit := ((t.contents? p).map (·.units)).getD []

/-- The file at `c` imports the one at `d`, which is found from the directory of `c`. -/
def Imports (t : FileTree) (c d : Path) : Prop :=
  ∃ contents, t.contents? c = some contents ∧
    ∃ path ∈ contents.imports, t.canonicalize (c.importing ⟨path⟩) = .ok d

/-- The inputs and all that is imported from there on. -/
def Reachable (t : FileTree) (inputs : List Path) (d : Path) : Prop :=
  ∃ p ∈ inputs, ∃ c, t.canonicalize p = .ok c ∧ ReflTransGen t.Imports c d

/-- One of the files is the one at `c`. -/
def Taken (files : List Path) (c : Path) : Prop := ∃ f ∈ files, f.components = c.components

/-- The depth-first preorder of what is requested, with each file only where it occurs first and those in `seen`
left out: a file comes before its imports, and these before what is requested after it. -/
inductive Preorder (t : FileTree) : List Path → List Path → List Path → Prop
  | nil {seen : List Path} : Preorder t seen [] []
  | again {seen rest files : List Path} {p c : Path} (hc : t.canonicalize p = .ok c)
      (hseen : Taken seen c) (hrest : Preorder t seen rest files) : Preorder t seen (p :: rest) files
  | first {seen rest inner later : List Path} {p c : Path} {contents : UnitFile.Contents}
      (hc : t.canonicalize p = .ok c) (hnew : ¬Taken seen c) (hread : t.contents? c = some contents)
      (hinner : Preorder t (seen ++ [c]) (contents.imports.map (c.importing ⟨·⟩)) inner)
      (hrest : Preorder t (seen ++ c :: inner) rest later) :
      Preorder t seen (p :: rest) (c :: inner ++ later)

theorem Taken.mono {files' : List Path} (h : Taken files c) (hsub : ∀ f ∈ files, f ∈ files') :
    Taken files' c := by
  obtain ⟨f, hf, heq⟩ := h
  exact ⟨f, hsub f hf, heq⟩

theorem contains_iff_taken {v : VisitOnce} : v.contains c = true ↔ Taken v.visited c := by
  simp [VisitOnce.contains, Taken]

theorem mem_components_iff : c.components ∈ seen.map Path.components ↔ Taken seen c :=
  List.mem_map

namespace Preorder

theorem nodup (h : t.Preorder seen requests files) (hseen : (seen.map Path.components).Nodup) :
    ((seen ++ files).map Path.components).Nodup := by
  induction h with
  | nil => simpa using hseen
  | again _ _ _ ih => exact ih hseen
  | @first seen rest inner later p c contents hc hnew _ _ _ ihinner ihrest =>
    have hcons : ((seen ++ [c]).map Path.components).Nodup := by
      rw [List.map_append, List.map_singleton]
      refine List.nodup_append.2 ⟨hseen, by simp, fun k hk k' hk' heq ↦ hnew ?_⟩
      rw [heq, List.mem_singleton.1 hk'] at hk
      exact mem_components_iff.1 hk
    have hinner := ihinner hcons
    rw [List.append_assoc, List.singleton_append] at hinner
    have hall := ihrest hinner
    rwa [List.append_assoc] at hall

theorem sound (h : t.Preorder seen requests files) : ∀ f ∈ files, t.Reachable requests f := by
  induction h with
  | nil =>
    intro f hf
    cases hf
  | again _ _ _ ih =>
    intro f hf
    obtain ⟨p, hp, hreach⟩ := ih f hf
    exact ⟨p, List.mem_cons_of_mem _ hp, hreach⟩
  | @first seen rest inner later p c contents hc hnew hread _ _ ihinner ihrest =>
    intro f hf
    rcases List.mem_append.1 hf with hf | hf
    · rcases List.mem_cons.1 hf with rfl | hf
      · exact ⟨p, List.mem_cons_self, f, hc, .refl⟩
      · obtain ⟨q, hq, d, hd, hreach⟩ := ihinner f hf
        obtain ⟨path, hpath, rfl⟩ := List.mem_map.1 hq
        exact ⟨p, List.mem_cons_self, c, hc, .head ⟨contents, hread, path, hpath, hd⟩ hreach⟩
    · obtain ⟨q, hq, hreach⟩ := ihrest f hf
      exact ⟨q, List.mem_cons_of_mem _ hq, hreach⟩

theorem taken (h : t.Preorder seen requests files) :
    (∀ p ∈ requests, ∃ c, t.canonicalize p = .ok c ∧ Taken (seen ++ files) c) ∧
      ∀ f ∈ files, (∃ p, t.canonicalize p = .ok f) ∧ ∃ contents, t.contents? f = some contents ∧
        ∀ path ∈ contents.imports, ∃ d, t.canonicalize (f.importing ⟨path⟩) = .ok d ∧
          Taken (seen ++ files) d := by
  induction h with
  | nil => exact ⟨fun p hp ↦ absurd hp List.not_mem_nil, fun f hf ↦ absurd hf List.not_mem_nil⟩
  | again hc hseen _ ih =>
    refine ⟨fun q hq ↦ ?_, ih.2⟩
    rcases List.mem_cons.1 hq with rfl | hq
    · exact ⟨_, hc, hseen.mono fun f hf ↦ List.mem_append_left _ hf⟩
    · exact ih.1 q hq
  | @first seen rest inner later p c contents hc hnew hread _ _ ihinner ihrest =>
    have hwiden : ∀ f ∈ seen ++ [c] ++ inner, f ∈ seen ++ (c :: inner ++ later) := by
      intro f hf
      simp only [List.mem_append, List.mem_cons, List.not_mem_nil, or_false] at hf ⊢
      tauto
    have hassoc : seen ++ c :: inner ++ later = seen ++ (c :: inner ++ later) := List.append_assoc ..
    rw [hassoc] at ihrest
    constructor
    · intro q hq
      rcases List.mem_cons.1 hq with rfl | hq
      · exact ⟨c, hc, c, by simp, rfl⟩
      · exact ihrest.1 q hq
    · intro f hf
      rcases List.mem_append.1 hf with hf | hf
      · rcases List.mem_cons.1 hf with rfl | hf
        · refine ⟨⟨p, hc⟩, contents, hread, fun path hpath ↦ ?_⟩
          obtain ⟨d, hd, htaken⟩ := ihinner.1 _ (List.mem_map_of_mem hpath)
          exact ⟨d, hd, htaken.mono hwiden⟩
        · obtain ⟨hcanon, contents', hread', himports⟩ := ihinner.2 f hf
          refine ⟨hcanon, contents', hread', fun path hpath ↦ ?_⟩
          obtain ⟨d, hd, htaken⟩ := himports path hpath
          exact ⟨d, hd, htaken.mono hwiden⟩
      · exact ihrest.2 f hf

end Preorder

theorem read_unreadable (e : FileError) : (UnitFile.read (.unreadable e)).toOption = none := by
  have hnext : UnitFile.Reader.next ⟨.unreadable e, .prolog⟩ =
      (.error (.markup (.io e)), ⟨⟨[], none⟩, .prolog⟩) := rfl
  simp only [UnitFile.read, UnitFile.Reader.run_of_error hnext]
  rfl

theorem exists_entry (h : t.contents? c = some contents) :
    ∃ entry, t.openEntry c = .ok entry ∧ (UnitFile.read entry.document).toOption = some contents := by
  unfold contents? openDocument at h
  cases ho : t.openEntry c with
  | error e =>
    rw [ho] at h
    cases h
  | ok entry =>
    rw [ho] at h
    exact ⟨entry, rfl, h⟩

theorem trail_ne_nil (hc : c.isAbsolute = true) (h : t.contents? c = some contents) :
    c.trail ≠ [] := by
  intro hnil
  obtain ⟨entry, hopen, hread⟩ := exists_entry h
  obtain ⟨found, hl⟩ := locate_of_openEntry hc hopen
  rw [hnil] at hl
  cases hl
  cases (read_unreadable .isDirectory).symm.trans hread

theorem contents?_unique (hc : c.isAbsolute = true) (hc' : c'.isAbsolute = true)
    (heq : c.components = c'.components) (h : t.contents? c = some contents)
    (h' : t.contents? c' = some contents') : contents = contents' := by
  obtain ⟨entry, hopen, hread⟩ := exists_entry h
  obtain ⟨entry', hopen', hread'⟩ := exists_entry h'
  rw [openEntry_unique hc hc' heq hopen hopen', hread'] at hread
  cases hread
  rfl

theorem Preorder.complete (h : t.Preorder [] inputs files) (hd : t.Reachable inputs d) :
    Taken files d := by
  -- Paths that differ and yet name the same file import the same files.
  obtain ⟨hinputs, hfiles⟩ := h.taken
  obtain ⟨p, hp, c, hc, hreach⟩ := hd
  have htaken : (∃ q, t.canonicalize q = .ok d) ∧ Taken files d := by
    induction hreach with
    | refl =>
      obtain ⟨c', hc', htaken⟩ := hinputs p hp
      cases hc.symm.trans hc'
      exact ⟨⟨p, hc⟩, htaken⟩
    | @tail b d _ himports ih =>
      obtain ⟨⟨q, hq⟩, f, hf, heq⟩ := ih
      obtain ⟨contents, hread, path, hpath, hd⟩ := himports
      obtain ⟨⟨q', hq'⟩, contents', hread', hall⟩ := hfiles f hf
      have hb := isAbsolute_of_canonicalize hq
      have hf' := isAbsolute_of_canonicalize hq'
      obtain rfl := contents?_unique hf' hb heq hread' hread
      obtain ⟨d', hd', htaken⟩ := hall path hpath
      obtain rfl := canonicalize_importing_unique hf' hb heq (trail_ne_nil hf' hread') hd' hd
      exact ⟨⟨_, hd⟩, htaken⟩
  exact htaken.2

end FileTree

namespace Job

variable {t : FileTree} {l l' fin : Loading} {p : Path} {requests rest : List Path}

namespace Loading

theorem serve_cases (h : l.serve t.canonicalize t.openDocument p rest = .ok l') :
    ∃ c, t.canonicalize p = .ok c ∧
      (FileTree.Taken l.files.visited c ∧ l' = { l with pending := rest } ∨
        ¬FileTree.Taken l.files.visited c ∧ ∃ contents, t.contents? c = some contents ∧
          l'.files.visited = l.files.visited ++ [c] ∧
          l'.pending = contents.imports.map (c.importing ⟨·⟩) ++ rest ∧
          l'.units = l.units ++ contents.units) := by
  unfold serve VisitOnce.request at h
  cases hc : t.canonicalize p with
  | error e => simp [hc] at h
  | ok c =>
    refine ⟨c, rfl, ?_⟩
    by_cases hv : l.files.contains c = true
    · simp only [hc, hv, if_true, Except.ok.injEq] at h
      exact .inl ⟨FileTree.contains_iff_taken.1 hv, h.symm⟩
    · refine .inr ⟨fun htaken ↦ hv (FileTree.contains_iff_taken.2 htaken), ?_⟩
      cases ho : t.openDocument c with
      | error e => simp [hc, hv, ho] at h
      | ok document =>
        simp only [hc, hv, ho, Bool.false_eq_true, if_false] at h
        split at h
        · cases h
        · next contents hr =>
          cases h
          exact ⟨contents, by simp [FileTree.contents?, ho, hr, Except.toOption], rfl, rfl, rfl⟩

theorem exists_preorder (hpending : l.pending = requests ++ rest) (hrun : l.run t = (none, fin)) :
    ∃ (files : List Path) (mid : Loading), t.Preorder l.files.visited requests files ∧ mid.run t = (none, fin) ∧
      mid.files.visited = l.files.visited ++ files ∧ mid.pending = rest ∧
      mid.units = l.units ++ files.flatMap t.unitsOf ∧ mid.weight t ≤ l.weight t := by
  -- The loading goes on with the imports of the file loaded first, and with the other requests from where that ends.
  induction hw : l.weight t using Nat.strong_induction_on generalizing l requests rest with
  | _ n ih =>
    cases requests with
    | nil => exact ⟨[], l, .nil, hrun, by simp, hpending, by simp, hw.le⟩
    | cons p requests =>
      cases hserve : l.serve t.canonicalize t.openDocument p (requests ++ rest) with
      | error e => cases (run_of_error hpending hserve).symm.trans hrun
      | ok l' =>
        have hlt := weight_serve_lt hpending hserve
        rw [hw] at hlt
        rw [run_of_ok hpending hserve] at hrun
        obtain ⟨c, hc, ⟨hseen, rfl⟩ | ⟨hnew, contents, hread, hvisited, hpend, hunits⟩⟩ :=
          serve_cases hserve
        · obtain ⟨files, mid, hpre, hmid, hvis, hrest, hun, hle⟩ := ih _ hlt rfl hrun rfl
          exact ⟨files, mid, .again hc hseen hpre, hmid, hvis, hrest, hun, hle.trans hlt.le⟩
        · obtain ⟨inner, mid, hpre, hmid, hvis, hrest, hun, hle⟩ := ih _ hlt hpend hrun rfl
          obtain ⟨later, mid', hpre', hmid', hvis', hrest', hun', hle'⟩ :=
            ih _ (hle.trans_lt hlt) hrest hmid rfl
          have hseen : mid.files.visited = l.files.visited ++ c :: inner := by simp [hvis, hvisited]
          rw [hvisited] at hpre
          rw [hseen] at hpre' hvis'
          refine ⟨c :: inner ++ later, mid', .first hc hnew hread hpre hpre', hmid', ?_, hrest', ?_,
            (hle'.trans hle).trans hlt.le⟩
          · simp [hvis']
          · simp [hun', hun, hunits, FileTree.unitsOf, hread]

inductive Serves (t : FileTree) : Nat → Loading → Loading → Prop
  | refl {l : Loading} : Serves t 0 l l
  | step {n : Nat} {l l' fin : Loading} {p : Path} {rest : List Path} (hp : l.pending = p :: rest)
      (hserve : l.serve t.canonicalize t.openDocument p rest = .ok l') (hrest : Serves t n l' fin) :
      Serves t (n + 1) l fin

theorem exists_serves (l : Loading) :
    ∃ n fin, Serves t n l fin ∧ n ≤ l.weight t ∧
      (fin.pending = [] ∧ l.run t = (none, fin) ∨
        ∃ p rest e, fin.pending = p :: rest ∧
          fin.serve t.canonicalize t.openDocument p rest = .error e ∧ l.run t = (some e, fin)) := by
  induction hw : l.weight t using Nat.strong_induction_on generalizing l with
  | _ n ih =>
    cases hp : l.pending with
    | nil => exact ⟨0, l, .refl, Nat.zero_le _, .inl ⟨hp, run_of_nil hp⟩⟩
    | cons p rest =>
      cases hserve : l.serve t.canonicalize t.openDocument p rest with
      | error e => exact ⟨0, l, .refl, Nat.zero_le _, .inr ⟨p, rest, e, hp, hserve, run_of_error hp hserve⟩⟩
      | ok l' =>
        have hlt := weight_serve_lt hp hserve
        rw [hw] at hlt
        obtain ⟨m, fin, hserves, hle, hend⟩ := ih _ hlt l' rfl
        refine ⟨m + 1, fin, .step hp hserve hserves, Nat.succ_le_of_lt (hle.trans_lt hlt), ?_⟩
        rwa [run_of_ok hp hserve]

end Loading

theorem preorder_of_load {t : FileTree} {inputs : List Path} {units : List LinkUnit}
    (h : (load t inputs).1 = .ok units) :
    ∃ files, t.Preorder [] inputs files ∧ units = files.flatMap t.unitsOf := by
  unfold load at h
  split at h
  · cases h
  · next fin hrun =>
    cases h
    have hpending : ({ pending := inputs } : Loading).pending = inputs ++ [] :=
      (List.append_nil inputs).symm
    obtain ⟨files, mid, hpre, hmid, -, hrest, hun, -⟩ := Loading.exists_preorder hpending hrun
    rw [Loading.run_of_nil hrest] at hmid
    cases hmid
    exact ⟨files, hpre, hun⟩

/-- Loading serves no more requests than there are inputs, and imports in the files of the tree. If it succeeds, the
units are those of the files in depth-first preorder, each taken once; these are the files that can be reached, and
no others. -/
theorem load_follows_imports_once (t : FileTree) (inputs : List Path) :
    (∃ n fin, Loading.Serves t n { pending := inputs } fin ∧
      n ≤ inputs.length + t.unseenImports {} ∧
      (fin.pending = [] ∧ (load t inputs).1 = .ok fin.units ∨
        ∃ p rest e, fin.pending = p :: rest ∧
          fin.serve t.canonicalize t.openDocument p rest = .error e ∧
          (load t inputs).1 = .error e)) ∧
      ∀ units, (load t inputs).1 = .ok units →
        ∃ files, t.Preorder [] inputs files ∧ units = files.flatMap t.unitsOf ∧
          (files.map Path.components).Nodup ∧ (∀ f ∈ files, t.Reachable inputs f) ∧
          ∀ d, t.Reachable inputs d → FileTree.Taken files d := by
  constructor
  · obtain ⟨n, fin, hserves, hle, hend⟩ := Loading.exists_serves (t := t) { pending := inputs }
    refine ⟨n, fin, hserves, hle.trans_eq (Nat.add_comm _ _), ?_⟩
    rcases hend with ⟨hp, hrun⟩ | ⟨p, rest, e, hp, hserve, hrun⟩
    · exact .inl ⟨hp, by simp [load, hrun]⟩
    · exact .inr ⟨p, rest, e, hp, hserve, by simp [load, hrun]⟩
  · intro units hload
    obtain ⟨files, hpre, hunits⟩ := preorder_of_load hload
    exact ⟨files, hpre, hunits, by simpa using hpre.nodup .nil, hpre.sound, fun d ↦ hpre.complete⟩

namespace Ring

def unitFile (name : String) (imports : List String) : Entry :=
  let lines := imports.map fun path ↦ "<import path=\"" ++ path ++ "\"/>"
  .file (Text.encode ("<units>" ++ String.join lines ++ "<unit name=\"" ++ name ++ "\"/></units>"))

def tree : FileTree :=
  { entries :=
      [(["d"], .dir), (["d", "a"], unitFile "a" ["b", "../c"]), (["d", "b"], unitFile "b" ["../c"]),
        (["c"], unitFile "c" ["d/a"]), (["d", "e"], unitFile "e" [])]
    current := ["d"] }

def inputs : List Path := [⟨"a"⟩, ⟨"/d/./b"⟩]

def units : List LinkUnit := [{ name := "a" }, { name := "b" }, { name := "c" }]

theorem c_loaded_once :
    (load tree inputs).1 = .ok units ∧
      ∃ files, tree.Preorder [] inputs files ∧ units = files.flatMap tree.unitsOf ∧
        (files.map Path.components).Nodup ∧ (∀ f ∈ files, tree.Reachable inputs f) ∧
        ∀ d, tree.Reachable inputs d → FileTree.Taken files d := by
  have hload : (load tree inputs).1 = .ok units := UnitFile.eq_ok_of_toOption (by decide +kernel)
  exact ⟨hload, (load_follows_imports_once tree inputs).2 units hload⟩

end Ring

end Job

end LinkOrder
