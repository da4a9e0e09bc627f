import LinkOrder.Proofs.Imports
import Mathlib.Data.List.Nodup

namespace LinkOrder

open Relation

namespace FileTree

variable {t : FileTree} {p q c d f : Path} {inputs inputs' files files' : List Path}

/-- The paths that loading asks for: the inputs, and the imports of all files that are found from there. -/
inductive Requested (t : FileTree) (inputs : List Path) : Path → Prop
  | input {p : Path} (hp : p ∈ inputs) : Requested t inputs p
  | imported {p c : Path} {contents : UnitFile.Contents} {path : String} (hp : Requested t inputs p)
      (hc : t.canonicalize p = .ok c) (hread : t.contents? c = some contents)
      (hpath : path ∈ contents.imports) : Requested t inputs (c.importing ⟨path⟩)

def Loadable (t : FileTree) (p : Path) : Prop :=
  ∃ c contents, t.canonicalize p = .ok c ∧ t.contents? c = some contents

theorem Requested.mono (h : t.Requested inputs p) (hsub : ∀ p ∈ inputs, p ∈ inputs') : t.Requested inputs' p := by
  induction h with
  | input hp => exact .input (hsub _ hp)
  | imported _ hc hread hpath ih => exact .imported ih hc hread hpath

theorem Reachable.mono (h : t.Reachable inputs f) (hsub : ∀ p ∈ inputs, p ∈ inputs') : t.Reachable inputs' f := by
  obtain ⟨p, hp, hreach⟩ := h
  exact ⟨p, hsub p hp, hreach⟩

theorem Reachable.canonical (h : t.Reachable inputs f) : ∃ p, t.canonicalize p = .ok f := by
  obtain ⟨p, -, c, hc, hreach⟩ := h
  cases hreach with
  | refl => exact ⟨p, hc⟩
  | tail _ himports =>
    obtain ⟨_, _, _, _, hf⟩ := himports
    exact ⟨_, hf⟩

namespace Preorder

theorem mem_of_taken (ht : t.Named) (h : t.Preorder [] inputs files) (hd : t.canonicalize q = .ok d)
    (htaken : Taken files d) : d ∈ files := by
  obtain ⟨f, hf, heq⟩ := htaken
  obtain ⟨⟨p, hp⟩, -⟩ := h.taken.2 f hf
  exact canonical_unique ht hp hd heq ▸ hf

theorem mem_iff (ht : t.Named) (h : t.Preorder [] inputs files) : f ∈ files ↔ t.Reachable inputs f := by
  refine ⟨h.sound f, fun hf ↦ ?_⟩
  obtain ⟨p, hp⟩ := hf.canonical
  exact h.mem_of_taken ht hp (h.complete hf)

theorem loadable (ht : t.Named) (h : t.Preorder [] inputs files) (hp : t.Requested inputs p) : t.Loadable p := by
  obtain ⟨hinputs, hfiles⟩ := h.taken
  have hmem : ∃ c ∈ files, t.canonicalize p = .ok c := by
    induction hp with
    | input hp =>
      obtain ⟨c, hc, htaken⟩ := hinputs _ hp
      exact ⟨c, h.mem_of_taken ht hc htaken, hc⟩
    | imported _ hc hread hpath ih =>
      obtain ⟨c', hc', hcanon⟩ := ih
      cases hc.symm.trans hcanon
      obtain ⟨-, contents', hread', himports⟩ := hfiles _ hc'
      cases hread.symm.trans hread'
      obtain ⟨d, hd, htaken⟩ := himports _ hpath
      exact ⟨d, h.mem_of_taken ht hd htaken, hd⟩
  obtain ⟨c, hc, hcanon⟩ := hmem
  obtain ⟨-, contents, hread, -⟩ := hfiles c hc
  exact ⟨c, contents, hcanon, hread⟩

theorem perm (ht : t.Named) (h : t.Preorder [] inputs files) (h' : t.Preorder [] inputs' files')
    (hinputs : ∀ p, p ∈ inputs' ↔ p ∈ inputs) : files.Perm files' := by
  have hnodup {inputs files : List Path} (h : t.Preorder [] inputs files) : files.Nodup := by
    have hcomponents := h.nodup .nil
    rw [List.nil_append] at hcomponents
    exact hcomponents.of_map _
  refine (List.perm_ext_iff_of_nodup (hnodup h) (hnodup h')).2 fun f ↦ ?_
  rw [h.mem_iff ht, h'.mem_iff ht]
  exact ⟨fun hf ↦ hf.mono fun p ↦ (hinputs p).2, fun hf ↦ hf.mono fun p ↦ (hinputs p).1⟩

end Preorder

end FileTree

namespace Job

variable {t : FileTree} {l l' fin : Loading} {p : Path} {inputs inputs' rest : List Path} {n : Nat}
  {units units' : List LinkUnit}

theorem Loading.exists_serve (h : t.Loadable p) (l : Loading) (rest : List Path) :
    ∃ l', l.serve t.canonicalize t.openDocument p rest = .ok l' := by
  obtain ⟨c, contents, hc, hread⟩ := h
  unfold FileTree.contents? at hread
  cases ho : t.openDocument c with
  | error e =>
    rw [ho] at hread
    cases hread
  | ok document =>
    cases hr : UnitFile.read document with
    | error e =>
      rw [ho] at hread
      simp [Except.toOption, hr] at hread
    | ok contents =>
      unfold serve VisitOnce.request
      cases hv : l.files.contains c <;> simp [hc, hv, ho, hr]

theorem Loading.Serves.requested (h : Serves t n l fin) (hl : ∀ p ∈ l.pending, t.Requested inputs p) :
    ∀ p ∈ fin.pending, t.Requested inputs p := by
  induction h with
  | refl => exact hl
  | @step n l l' fin p rest hp hserve _ ih =>
    rw [hp] at hl
    have hrest := fun q hq ↦ hl q (List.mem_cons_of_mem _ hq)
    apply ih
    obtain ⟨c, hc, ⟨-, rfl⟩ | ⟨-, contents, hread, -, hpending, -⟩⟩ := serve_cases hserve
    · exact hrest
    · rw [hpending]
      intro q hq
      rcases List.mem_append.1 hq with hq | hq
      · obtain ⟨path, hpath, rfl⟩ := List.mem_map.1 hq
        exact .imported (hl p List.mem_cons_self) hc hread hpath
      · exact hrest q hq

/-- Loading succeeds just if all that it can come to ask for is there. -/
theorem exists_load_iff (ht : t.Named) :
    (∃ units, (load t inputs).1 = .ok units) ↔ ∀ p, t.Requested inputs p → t.Loadable p := by
  constructor
  · rintro ⟨units, hload⟩ p hp
    obtain ⟨files, hpre, -⟩ := preorder_of_load hload
    exact hpre.loadable ht hp
  · intro hall
    obtain ⟨n, fin, hserves, -, ⟨-, hrun⟩ | ⟨p, rest, e, hp, hserve, -⟩⟩ :=
      Loading.exists_serves (t := t) { pending := inputs }
    · exact ⟨fin.units, by simp [load, hrun]⟩
    · have hrequested : t.Requested inputs p :=
        hserves.requested (fun q hq ↦ .input hq) p (hp ▸ List.mem_cons_self)
      obtain ⟨l', hok⟩ := Loading.exists_serve (hall p hrequested) fin rest
      cases hserve.symm.trans hok

theorem exists_load_congr (ht : t.Named) (hinputs : ∀ p, p ∈ inputs' ↔ p ∈ inputs) :
    (∃ units, (load t inputs').1 = .ok units) ↔ ∃ units, (load t inputs).1 = .ok units := by
  rw [exists_load_iff ht, exists_load_iff ht]
  constructor
  · intro hall p hp
    exact hall p (hp.mono fun q ↦ (hinputs q).2)
  · intro hall p hp
    exact hall p (hp.mono fun q ↦ (hinputs q).1)

theorem perm_of_load (ht : t.Named) (hinputs : ∀ p, p ∈ inputs' ↔ p ∈ inputs)
    (h : (load t inputs).1 = .ok units) (h' : (load t inputs').1 = .ok units') : units.Perm units' := by
  obtain ⟨files, hpre, rfl⟩ := preorder_of_load h
  obtain ⟨files', hpre', rfl⟩ := preorder_of_load h'
  exact (hpre.perm ht hpre' hinputs).flatMap_right _

end Job

end LinkOrder
