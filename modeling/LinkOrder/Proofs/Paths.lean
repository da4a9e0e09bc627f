import LinkOrder.File.Tree
import Mathlib.Data.List.DropRight

namespace LinkOrder

namespace Path

variable {part l m : List Char} {parts : List (List Char)} {p q : Path} {c : Char} {start : Head}

theorem splitSlash_slash (l : List Char) : splitSlash ('/' :: l) = [] :: splitSlash l := by
  simp [splitSlash]

theorem splitSlash_cons_of_ne {c : Char} (hc : c ≠ '/') (l : List Char) :
    ∃ part parts, splitSlash l = part :: parts ∧ splitSlash (c :: l) = (c :: part) :: parts := by
  induction l generalizing c with
  | nil => exact ⟨[], [], rfl, by simp [splitSlash, hc]⟩
  | cons d l ih =>
    by_cases hd : d = '/'
    · exact ⟨[], splitSlash l, by simp [splitSlash, hd], by simp [splitSlash, hc, hd]⟩
    · obtain ⟨part, parts, -, hsplit⟩ := ih hd
      exact ⟨d :: part, parts, hsplit, by rw [splitSlash, if_neg hc, hsplit]⟩

theorem splitSlash_ne_nil (l : List Char) : splitSlash l ≠ [] := by
  cases l with
  | nil => simp [splitSlash]
  | cons c l =>
    by_cases hc : c = '/'
    · simp [splitSlash, hc]
    · obtain ⟨part, parts, -, hsplit⟩ := splitSlash_cons_of_ne hc l
      simp [hsplit]

theorem splitSlash_append (l m : List Char) :
    splitSlash (l ++ '/' :: m) = splitSlash l ++ splitSlash m := by
  induction l with
  | nil => exact splitSlash_slash m
  | cons c l ih =>
    by_cases hc : c = '/'
    · simp [hc, splitSlash_slash, ih]
    · obtain ⟨part, parts, hl, hsplit⟩ := splitSlash_cons_of_ne hc l
      rw [hl, List.cons_append] at ih
      rw [hsplit, List.cons_append, splitSlash, if_neg hc, ih]
      rfl

theorem not_mem_of_mem_splitSlash (h : part ∈ splitSlash l) : '/' ∉ part := by
  induction l generalizing part with
  | nil => simp_all [splitSlash]
  | cons c l ih =>
    by_cases hc : c = '/'
    · rw [hc, splitSlash_slash] at h
      rcases List.mem_cons.1 h with rfl | h
      · exact List.not_mem_nil
      · exact ih h
    · obtain ⟨first, parts, hl, hsplit⟩ := splitSlash_cons_of_ne hc l
      rw [hl] at ih
      rw [hsplit] at h
      rcases List.mem_cons.1 h with rfl | h
      · have hfirst := ih List.mem_cons_self
        simp [hfirst, Ne.symm hc]
      · exact ih (List.mem_cons_of_mem _ h)

theorem splitSlash_of_not_mem (h : '/' ∉ part) : splitSlash part = [part] := by
  induction part with
  | nil => rfl
  | cons c part ih =>
    obtain ⟨hc, hpart⟩ := not_or.1 fun hc ↦ h (List.mem_cons.2 hc)
    rw [splitSlash, if_neg (Ne.symm hc), ih hpart]

theorem splitSlash_joinSlash (h : ∀ part ∈ parts, '/' ∉ part) (hne : parts ≠ []) :
    splitSlash (joinSlash parts) = parts := by
  induction parts with
  | nil => exact absurd rfl hne
  | cons part parts ih =>
    have hpart := splitSlash_of_not_mem (h part List.mem_cons_self)
    cases parts with
    | nil => exact hpart
    | cons next parts =>
      have hrest := ih (fun x hx ↦ h x (List.mem_cons_of_mem _ hx)) (List.cons_ne_nil _ _)
      rw [joinSlash, splitSlash_append, hpart, hrest, List.singleton_append]
      simp

def steps (parts : List (List Char)) : List (List Char) := parts.filter (!isIdle ·)

@[simp] theorem steps_nil : steps [] = [] := rfl

@[simp] theorem steps_append (parts parts' : List (List Char)) :
    steps (parts ++ parts') = steps parts ++ steps parts' := List.filter_append ..

theorem steps_cons_of_idle (h : isIdle part = true) : steps (part :: parts) = steps parts := by
  simp [steps, h]

theorem steps_cons_of_not_idle (h : isIdle part = false) :
    steps (part :: parts) = part :: steps parts := by
  simp [steps, h]

theorem steps_dropIdle (parts : List (List Char)) : steps (dropIdle parts) = steps parts := by
  change steps (parts.rdropWhile isIdle) = steps parts
  induction parts using List.reverseRecOn with
  | nil => rfl
  | append_singleton parts part ih =>
    cases hp : isIdle part with
    | true => simpa [List.rdropWhile_concat, hp, steps_cons_of_idle] using ih
    | false => simp [hp]

theorem steps_dropLast_dropIdle (parts : List (List Char)) :
    steps (dropIdle parts).dropLast = (steps parts).dropLast := by
  rw [← steps_dropIdle parts]
  change steps (parts.rdropWhile isIdle).dropLast = (steps (parts.rdropWhile isIdle)).dropLast
  have hlast := List.rdropWhile_last_not isIdle parts
  generalize parts.rdropWhile isIdle = parts at hlast
  rcases List.eq_nil_or_concat parts with rfl | ⟨init, last, rfl⟩
  · rfl
  · have hidle : isIdle last = false := by simpa using hlast (by simp)
    simp [steps_cons_of_not_idle hidle]

theorem exists_slash (h : p.isAbsolute = true) : ∃ l, p = ⟨.ofList ('/' :: l)⟩ := by
  obtain ⟨l, hl⟩ := List.head?_eq_some_iff.1 (beq_iff_eq.1 h)
  refine ⟨l, ?_⟩
  rw [← hl, String.ofList_toList]

theorem isAbsolute_slash (l : List Char) : isAbsolute ⟨.ofList ('/' :: l)⟩ = true := by
  simp [isAbsolute]

theorem text_ne_of_isAbsolute (h : p.isAbsolute = true) : p.text ≠ "" := by
  obtain ⟨l, rfl⟩ := exists_slash h
  simp

theorem split_slash (l : List Char) : split ⟨.ofList ('/' :: l)⟩ = (.root, splitSlash l) := by
  obtain ⟨part, parts, hl⟩ := List.exists_cons_of_ne_nil (splitSlash_ne_nil l)
  simp [split, splitSlash_slash, hl]

/-- The parts of a path that lead somewhere. -/
def trail (p : Path) : List (List Char) := steps (splitSlash p.text.toList)

theorem trail_slash (l : List Char) : trail ⟨.ofList ('/' :: l)⟩ = steps (splitSlash l) := by
  rw [trail, String.toList_ofList, splitSlash_slash]
  exact steps_cons_of_idle rfl

theorem component_injective : Function.Injective component := by
  intro a b h
  unfold component at h
  split at h <;> split at h <;> simp_all

theorem trail_eq_of_components (hp : p.isAbsolute = true) (hq : q.isAbsolute = true)
    (h : p.components = q.components) : p.trail = q.trail := by
  obtain ⟨l, rfl⟩ := exists_slash hp
  obtain ⟨m, rfl⟩ := exists_slash hq
  rw [trail_slash, trail_slash]
  simp only [components, split_slash, List.append_cancel_left_eq] at h
  exact List.map_injective_iff.2 component_injective h

theorem eq_empty_or_slash_or_cons (p : Path) :
    p = ⟨""⟩ ∨ (∃ l, p = ⟨.ofList ('/' :: l)⟩) ∨
      ∃ c part parts, splitSlash p.text.toList = (c :: part) :: parts := by
  obtain ⟨text⟩ := p
  cases hl : text.toList with
  | nil => exact .inl (congrArg Path.mk (String.toList_eq_nil_iff.1 hl))
  | cons c l =>
    right
    by_cases hc : c = '/'
    · exact .inl ⟨l, by rw [← hc, ← hl, String.ofList_toList]⟩
    · obtain ⟨part, parts, -, hsplit⟩ := splitSlash_cons_of_ne hc l
      exact .inr ⟨c, part, parts, hsplit⟩

/-- Where a path begins. -/
def head (p : Path) : Head := p.split.1

theorem steps_split (p : Path) : steps p.split.2 = p.trail := by
  unfold split trail
  split
  · next heq =>
    rw [heq]
    exact (steps_cons_of_idle rfl).symm
  · next heq =>
    rw [heq]
    exact (steps_cons_of_idle rfl).symm
  · rfl

theorem head_slash (l : List Char) : head ⟨.ofList ('/' :: l)⟩ = .root := by
  rw [head, split_slash]

theorem split_cons (h : splitSlash p.text.toList = (c :: part) :: parts) :
    p.split = if c :: part = ['.'] then (.here, parts) else (.relative, (c :: part) :: parts) := by
  unfold split
  rw [h]
  split
  · next heq => cases heq
  · next heq =>
    cases heq
    rfl
  · next _ hdot =>
    have hne : c :: part ≠ ['.'] := fun heq ↦ hdot parts (by rw [heq])
    rw [if_neg hne]

theorem head_cons (h : splitSlash p.text.toList = (c :: part) :: parts) :
    p.head = if c :: part = ['.'] then .here else .relative := by
  rw [head, split_cons h]
  split <;> rfl

theorem head_eq_root_iff : p.head = .root ↔ p.isAbsolute = true := by
  constructor
  · intro h
    rcases p.eq_empty_or_slash_or_cons with rfl | ⟨l, rfl⟩ | ⟨c, part, parts, hsplit⟩
    · cases h
    · exact isAbsolute_slash l
    · rw [head_cons hsplit] at h
      split at h <;> cases h
  · intro h
    obtain ⟨l, rfl⟩ := exists_slash h
    exact head_slash l

theorem head_append (hl : l ≠ []) (m : List Char) :
    head ⟨.ofList (l ++ '/' :: m)⟩ = head ⟨.ofList l⟩ := by
  obtain ⟨c, l, rfl⟩ := List.exists_cons_of_ne_nil hl
  by_cases hc : c = '/'
  · rw [hc, List.cons_append, head_slash, head_slash]
  · obtain ⟨part, parts, -, hsplit⟩ := splitSlash_cons_of_ne hc l
    have hlong : splitSlash (c :: l ++ '/' :: m) = (c :: part) :: (parts ++ splitSlash m) := by
      rw [splitSlash_append, hsplit, List.cons_append]
    rw [head_cons (by rw [String.toList_ofList, hlong]), head_cons (by rw [String.toList_ofList, hsplit])]

theorem join_cases (hp : p.text ≠ "") (hq : q.isAbsolute = false) :
    ∃ l, p.join q = ⟨.ofList (l ++ '/' :: q.text.toList)⟩ ∧
      (l ≠ [] ∧ p = ⟨.ofList l⟩ ∨ p = ⟨.ofList (l ++ ['/'])⟩) := by
  unfold join
  rw [hq, if_neg Bool.false_ne_true]
  split
  · next hlast =>
    rcases List.eq_nil_or_concat p.text.toList with hnil | ⟨init, c, hc⟩
    · exact absurd (String.toList_eq_nil_iff.1 hnil) hp
    · have hslash : c = '/' := by simpa [hc] using hlast
      rw [hslash, List.concat_eq_append] at hc
      refine ⟨init, ?_, .inr ?_⟩
      · apply congrArg Path.mk
        rw [String.ext_iff, String.toList_append, hc, String.toList_ofList]
        simp
      · rw [← hc, String.ofList_toList]
  · refine ⟨p.text.toList, ?_, .inl ⟨mt String.toList_eq_nil_iff.1 hp, ?_⟩⟩
    · apply congrArg Path.mk
      rw [String.ext_iff]
      simp
    · rw [String.ofList_toList]

theorem exists_join (hp : p.text ≠ "") (hq : q.isAbsolute = false) :
    (p.join q).head = p.head ∧ ∃ parts, steps parts = p.trail ∧
      splitSlash (p.join q).text.toList = parts ++ splitSlash q.text.toList := by
  obtain ⟨l, heq, ⟨hl, rfl⟩ | rfl⟩ := join_cases hp hq
  · rw [heq]
    refine ⟨head_append hl _, splitSlash l, ?_, ?_⟩
    · rw [trail, String.toList_ofList]
    · rw [String.toList_ofList, splitSlash_append]
  · rw [heq]
    refine ⟨?_, splitSlash l, ?_, ?_⟩
    · cases l with
      | nil => exact (head_slash _).trans (head_slash []).symm
      | cons c l => rw [head_append (List.cons_ne_nil c l), head_append (List.cons_ne_nil c l)]
    · rw [trail, String.toList_ofList, splitSlash_append, steps_append]
      exact (List.append_nil _).symm
    · rw [String.toList_ofList, splitSlash_append]

/-- Parts that may follow where a path begins: no slash is inside them, and the first one names something if nothing
stands before it. -/
structure CanFollow (start : Head) (parts : List (List Char)) : Prop where
  slash : ∀ part ∈ parts, '/' ∉ part
  first : start = .relative → ∀ part ∈ parts.head?, isIdle part = false

theorem CanFollow.of_isPrefix {parts' : List (List Char)} (h : CanFollow start parts) (hle : parts' <+: parts) :
    CanFollow start parts' := by
  refine ⟨fun part hpart ↦ h.slash part (hle.subset hpart), fun hstart part hpart ↦ h.first hstart part ?_⟩
  obtain ⟨rest, rfl⟩ := hle
  rw [List.head?_append, Option.mem_def.1 hpart]
  rfl

theorem canFollow_split (hp : p.text ≠ "") : CanFollow p.head p.split.2 := by
  rcases p.eq_empty_or_slash_or_cons with rfl | ⟨l, rfl⟩ | ⟨c, part, parts, hsplit⟩
  · exact absurd rfl hp
  · rw [head_slash, split_slash]
    exact ⟨fun _ ↦ not_mem_of_mem_splitSlash, fun h ↦ absurd h (by decide)⟩
  · have hslash : ∀ x ∈ (c :: part) :: parts, '/' ∉ x := fun x hx ↦ not_mem_of_mem_splitSlash (hsplit ▸ hx)
    rw [head_cons hsplit, split_cons hsplit]
    split
    · exact ⟨fun x hx ↦ hslash x (List.mem_cons_of_mem _ hx), fun h ↦ absurd h (by decide)⟩
    · next hdot =>
      refine ⟨hslash, fun _ x hx ↦ ?_⟩
      cases hx
      simpa [isIdle] using hdot

theorem unsplit_eq (h : CanFollow start parts) :
    (unsplit start parts).head = start ∧ (unsplit start parts).trail = steps parts := by
  cases parts with
  | nil => cases start <;> exact ⟨rfl, rfl⟩
  | cons part parts =>
    have hjoin := splitSlash_joinSlash h.slash (List.cons_ne_nil part parts)
    cases start with
    | root =>
      refine ⟨head_slash _, ?_⟩
      rw [unsplit, trail_slash, hjoin]
    | here =>
      refine ⟨head_append (List.cons_ne_nil '.' []) _, ?_⟩
      have hdot := splitSlash_append ['.'] (joinSlash (part :: parts))
      rw [hjoin] at hdot
      simp only [trail, unsplit, String.toList_ofList]
      exact (congrArg steps hdot).trans (steps_cons_of_idle rfl)
    | relative =>
      have hidle := h.first rfl part rfl
      cases part with
      | nil => cases hidle
      | cons c part =>
        have hsplit : splitSlash (unsplit .relative ((c :: part) :: parts)).text.toList = (c :: part) :: parts := by
          rw [unsplit, String.toList_ofList, hjoin]
        have hdot : c :: part ≠ ['.'] := by simpa [isIdle] using hidle
        exact ⟨by rw [head_cons hsplit, if_neg hdot], by rw [trail, hsplit]⟩

theorem dropIdle_eq_nil_iff : dropIdle parts = [] ↔ steps parts = [] := by
  change parts.rdropWhile isIdle = [] ↔ _
  simp [List.rdropWhile_eq_nil_iff, steps]

theorem parent?_eq (p : Path) :
    p.parent? =
      if dropIdle p.split.2 = [] then if p.head = .here then some ⟨""⟩ else none
      else some (unsplit p.head (dropIdle (dropIdle p.split.2).dropLast)) := by
  unfold parent? head
  obtain ⟨start, parts⟩ := p.split
  dsimp only
  cases dropIdle parts with
  | nil => cases start <;> rfl
  | cons part parts => rfl

theorem dropIdle_split_eq_nil_iff : dropIdle p.split.2 = [] ↔ p.trail = [] := by
  rw [dropIdle_eq_nil_iff, steps_split]

theorem exists_parent (hne : p.trail ≠ []) :
    ∃ dir, p.parent? = some dir ∧ dir.head = p.head ∧ dir.trail = p.trail.dropLast := by
  have htext : p.text ≠ "" := by
    intro h
    rw [trail, h] at hne
    exact hne rfl
  have hle : dropIdle (dropIdle p.split.2).dropLast <+: p.split.2 :=
    (List.rdropWhile_prefix isIdle _).trans ((List.dropLast_prefix _).trans (List.rdropWhile_prefix isIdle _))
  obtain ⟨hhead, htrail⟩ := unsplit_eq ((canFollow_split htext).of_isPrefix hle)
  refine ⟨_, by rw [parent?_eq, if_neg (mt dropIdle_split_eq_nil_iff.1 hne)], hhead, ?_⟩
  rw [htrail, steps_dropIdle, steps_dropLast_dropIdle, steps_split]

theorem importing_of_isAbsolute (p : Path) (hq : q.isAbsolute = true) : p.importing q = q := by
  unfold importing
  split
  · simp [join, hq]
  · rfl

/-- What a file imports is looked for from where its path leads but for the last step. -/
theorem exists_importing (hp : p.isAbsolute = true) (hne : p.trail ≠ [])
    (hq : q.isAbsolute = false) :
    (p.importing q).isAbsolute = true ∧ ∃ parts, steps parts = p.trail.dropLast ∧
      splitSlash (p.importing q).text.toList = parts ++ splitSlash q.text.toList := by
  obtain ⟨dir, hdir, hhead, htrail⟩ := exists_parent hne
  have habs : dir.isAbsolute = true := head_eq_root_iff.1 (hhead.trans (head_eq_root_iff.2 hp))
  have himporting : p.importing q = dir.join q := by simp [importing, hdir]
  obtain ⟨hjoin, hparts⟩ := exists_join (text_ne_of_isAbsolute habs) hq
  rw [himporting, ← htrail]
  exact ⟨head_eq_root_iff.1 (hjoin.trans (head_eq_root_iff.2 habs)), hparts⟩

/-- A name that can stand between two slashes and leads somewhere. -/
def IsStep (name : String) : Prop := '/' ∉ name.toList ∧ isIdle name.toList = false

end Path

namespace FileTree

open LinkOrder.Path

variable {t : FileTree} {names found : List String} {parts rest : List (List Char)} {c c' d d' q : Path}

theorem locate_steps {found : List String × Entry} (h : t.locate names parts = .ok found) :
    t.locate names (steps parts) = .ok found := by
  induction parts generalizing names with
  | nil => exact h
  | cons part parts ih =>
    unfold locate at h
    split at h
    · cases h
    · cases h
    · next hdir =>
      split at h
      · next hidle =>
        rw [steps_cons_of_idle hidle]
        exact ih h
      · next hidle =>
        rw [steps_cons_of_not_idle (by simpa using hidle)]
        unfold locate
        rw [hdir]
        simp only [hidle, if_false, Bool.false_eq_true]
        split at h
        · next hup =>
          rw [if_pos hup]
          exact ih h
        · next hup =>
          rw [if_neg hup]
          split at h
          · cases h
          · next hsize =>
            rw [if_neg hsize]
            exact ih h

theorem slashBefore_steps (parts : List (List Char)) (hne : rest ≠ []) :
    slashBefore (parts ++ rest) = slashBefore (steps parts ++ rest) := by
  induction parts with
  | nil => rfl
  | cons part parts ih =>
    cases hidle : isIdle part with
    | true =>
      rw [steps_cons_of_idle hidle, ← ih]
      simp [slashBefore, hidle, hne]
    | false =>
      rw [steps_cons_of_not_idle hidle]
      simp [slashBefore, hidle]

theorem resolve_steps (hne : rest ≠ []) :
    t.resolve names (parts ++ rest) = t.resolve names (steps parts ++ rest) := by
  induction parts generalizing names with
  | nil => rfl
  | cons part parts ih =>
    cases hidle : isIdle part with
    | true =>
      rw [steps_cons_of_idle hidle, List.cons_append, resolve, if_pos hidle]
      exact ih
    | false =>
      rw [steps_cons_of_not_idle hidle, List.cons_append, List.cons_append, resolve, resolve]
      simp only [hidle, Bool.false_eq_true, if_false, slashBefore_steps parts hne, ih]

theorem resolve_of_canonicalize (h : t.canonicalize c = .ok d) :
    (t.resolve (t.start c) (splitSlash c.text.toList)).map absolute = .ok d := by
  unfold canonicalize at h
  split at h
  · cases h
  · exact h

theorem isAbsolute_of_canonicalize (h : t.canonicalize c = .ok d) : d.isAbsolute = true := by
  have hd := resolve_of_canonicalize h
  cases hr : t.resolve (t.start c) (splitSlash c.text.toList) with
  | error e =>
    rw [hr] at hd
    cases hd
  | ok found =>
    rw [hr] at hd
    cases hd
    exact isAbsolute_slash _

theorem locate_of_openEntry {entry : Entry} (hc : c.isAbsolute = true)
    (h : t.openEntry c = .ok entry) : ∃ found, t.locate [] c.trail = .ok (found, entry) := by
  unfold openEntry at h
  cases hcheck : checkPath c with
  | error e =>
    rw [hcheck] at h
    cases h
  | ok _ =>
    rw [hcheck, start, if_pos hc] at h
    cases hl : t.locate [] (splitSlash c.text.toList) with
    | error e =>
      rw [hl] at h
      cases h
    | ok found =>
      rw [hl] at h
      cases h
      exact ⟨found.1, locate_steps hl⟩

theorem openEntry_unique {entry entry' : Entry} (hc : c.isAbsolute = true)
    (hc' : c'.isAbsolute = true) (heq : c.components = c'.components)
    (h : t.openEntry c = .ok entry) (h' : t.openEntry c' = .ok entry') : entry = entry' := by
  obtain ⟨found, hl⟩ := locate_of_openEntry hc h
  obtain ⟨found', hl'⟩ := locate_of_openEntry hc' h'
  rw [trail_eq_of_components hc hc' heq, hl'] at hl
  cases hl
  rfl

theorem canonicalize_importing_unique (hc : c.isAbsolute = true) (hc' : c'.isAbsolute = true)
    (heq : c.components = c'.components) (hne : c.trail ≠ [])
    (h : t.canonicalize (c.importing q) = .ok d) (h' : t.canonicalize (c'.importing q) = .ok d') :
    d = d' := by
  cases hq : q.isAbsolute with
  | true =>
    rw [importing_of_isAbsolute c hq] at h
    rw [importing_of_isAbsolute c' hq, h] at h'
    cases h'
    rfl
  | false =>
    have htrail := trail_eq_of_components hc hc' heq
    obtain ⟨habs, parts, hsteps, hsplit⟩ := exists_importing hc hne hq
    obtain ⟨habs', parts', hsteps', hsplit'⟩ := exists_importing hc' (htrail ▸ hne) hq
    have hd := resolve_of_canonicalize h
    have hd' := resolve_of_canonicalize h'
    rw [start, if_pos habs, hsplit, resolve_steps (splitSlash_ne_nil _), hsteps, htrail] at hd
    rw [start, if_pos habs', hsplit', resolve_steps (splitSlash_ne_nil _), hsteps', hd] at hd'
    cases hd'
    rfl

/-- The directory at which relative paths begin is told by names alone. -/
def Named (t : FileTree) : Prop := ∀ name ∈ t.current, IsStep name

theorem resolve_named (hnames : ∀ name ∈ names, IsStep name) (hparts : ∀ part ∈ parts, '/' ∉ part)
    (h : t.resolve names parts = .ok found) : ∀ name ∈ found, IsStep name := by
  induction parts generalizing names with
  | nil =>
    unfold resolve locate at h
    cases he : t.get? names with
    | none =>
      rw [he] at h
      cases h
    | some entry =>
      rw [he] at h
      cases h
      exact hnames
  | cons part parts ih =>
    have hrest := fun x hx ↦ hparts x (List.mem_cons_of_mem _ hx)
    unfold resolve at h
    split at h
    · exact ih hnames hrest h
    · next hidle =>
      split at h
      · exact ih (fun name hname ↦ hnames name ((List.dropLast_sublist names).subset hname)) hrest h
      · have hhere : ∀ name ∈ names ++ [String.ofList part], IsStep name := by
          intro name hname
          rcases List.mem_append.1 hname with hname | hname
          · exact hnames name hname
          · rw [List.mem_singleton.1 hname, IsStep, String.toList_ofList]
            exact ⟨hparts part List.mem_cons_self, by simpa using hidle⟩
        dsimp only at h
        split at h
        · cases h
        · split at h
          · cases h
          · exact ih hhere hrest h

theorem trail_absolute (h : ∀ name ∈ names, IsStep name) :
    (absolute names).trail = names.map (·.toList) := by
  unfold absolute
  rw [trail_slash]
  by_cases hnil : names = []
  · rw [hnil]
    rfl
  · have hslash : ∀ part ∈ names.map (·.toList), '/' ∉ part := by
      intro part hpart
      obtain ⟨name, hname, rfl⟩ := List.mem_map.1 hpart
      exact (h name hname).1
    rw [splitSlash_joinSlash hslash (by simpa using hnil), steps, List.filter_eq_self]
    intro part hpart
    obtain ⟨name, hname, rfl⟩ := List.mem_map.1 hpart
    simp [(h name hname).2]

theorem exists_names_of_canonicalize (ht : t.Named) (h : t.canonicalize q = .ok c) :
    ∃ names, (∀ name ∈ names, IsStep name) ∧ c = absolute names := by
  have hstart : ∀ name ∈ t.start q, IsStep name := by
    unfold start
    split
    · simp
    · exact ht
  have hc := resolve_of_canonicalize h
  cases hr : t.resolve (t.start q) (splitSlash q.text.toList) with
  | error e =>
    rw [hr] at hc
    cases hc
  | ok names =>
    rw [hr] at hc
    cases hc
    exact ⟨names, resolve_named hstart (fun _ ↦ not_mem_of_mem_splitSlash) hr, rfl⟩

theorem canonical_unique {q' : Path} (ht : t.Named) (hc : t.canonicalize q = .ok c)
    (hd : t.canonicalize q' = .ok d) (h : c.components = d.components) : c = d := by
  have htrail := trail_eq_of_components (isAbsolute_of_canonicalize hc) (isAbsolute_of_canonicalize hd) h
  obtain ⟨names, hnames, rfl⟩ := exists_names_of_canonicalize ht hc
  obtain ⟨names', hnames', rfl⟩ := exists_names_of_canonicalize ht hd
  rw [trail_absolute hnames, trail_absolute hnames'] at htrail
  rw [List.map_injective_iff.2 (fun _ _ ↦ String.toList_inj.1) htrail]

end FileTree

end LinkOrder
