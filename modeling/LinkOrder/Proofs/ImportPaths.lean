import LinkOrder.Proofs.Paths

namespace LinkOrder

namespace Path

variable {part : List Char} {p q dir : Path}

theorem components_eq (p : Path) : p.components = p.head.components ++ p.trail.map component := by
  rw [← steps_split]
  rfl

theorem components_eq_nil_iff : p.components = [] ↔ p.text = "" := by
  constructor
  · intro h
    rcases p.eq_empty_or_slash_or_cons with rfl | ⟨l, rfl⟩ | ⟨c, part, parts, hsplit⟩
    · rfl
    · rw [components_eq, head_slash] at h
      cases h
    · rw [components_eq, head_cons hsplit, trail, hsplit] at h
      split at h
      · cases h
      · next hdot =>
        rw [steps_cons_of_not_idle (by simpa [isIdle] using hdot)] at h
        cases h
  · intro h
    obtain ⟨text⟩ := p
    subst h
    rfl

theorem components_parent? (h : p.parent? = some dir) : dir.components = p.components.dropLast := by
  by_cases hnil : p.trail = []
  · rw [parent?_eq, if_pos (dropIdle_split_eq_nil_iff.2 hnil)] at h
    split at h
    · next hhere =>
      cases h
      rw [components_eq p, hhere, hnil]
      rfl
    · cases h
  · obtain ⟨_, hdir, hhead, htrail⟩ := exists_parent hnil
    cases hdir.symm.trans h
    rw [components_eq, components_eq, hhead, htrail, List.map_dropLast, List.dropLast_append_of_ne_nil]
    simpa using hnil

theorem length_components_of_parent?_eq_none (h : p.parent? = none) : p.components.length ≤ 1 := by
  rw [parent?_eq] at h
  split at h
  · next hnil =>
    rw [components_eq, dropIdle_split_eq_nil_iff.1 hnil]
    cases p.head <;> decide
  · cases h

/-- Without the dot that a path may begin with. -/
def dropHere : List Component → List Component
  | .here :: rest => rest
  | rest => rest

theorem dropHere_map_component (parts : List (List Char)) :
    dropHere (parts.map component) = parts.map component := by
  cases parts with
  | nil => rfl
  | cons part parts =>
    by_cases hup : part = ['.', '.'] <;> simp [component, hup, dropHere]

theorem dropHere_components (h : p.isAbsolute = false) : dropHere p.components = p.trail.map component := by
  rw [components_eq]
  cases hp : p.head with
  | root => simp [head_eq_root_iff.1 hp] at h
  | here => rfl
  | relative => exact dropHere_map_component p.trail

theorem components_join (hp : p.text ≠ "") (hq : q.isAbsolute = false) :
    (p.join q).components = p.components ++ dropHere q.components := by
  obtain ⟨hhead, parts, hsteps, hsplit⟩ := exists_join hp hq
  have htrail : (p.join q).trail = p.trail ++ q.trail := by
    rw [trail, hsplit, steps_append, hsteps]
    rfl
  rw [components_eq, hhead, htrail, dropHere_components hq, components_eq p, List.map_append, List.append_assoc]

theorem empty_join (q : Path) : (⟨""⟩ : Path).join q = q := by
  unfold join
  split
  · rfl
  · simp

theorem root_mem_components_iff : .root ∈ p.components ↔ p.isAbsolute = true := by
  have hnot : .root ∉ p.trail.map component := by
    intro hmem
    obtain ⟨part, -, hpart⟩ := List.mem_map.1 hmem
    unfold component at hpart
    split at hpart <;> cases hpart
  rw [← head_eq_root_iff, components_eq, List.mem_append, or_iff_left hnot]
  cases p.head <;> simp [Head.components]

/-- A path that is empty, or the root, or a single component other than the root. -/
def Lone (p : Path) : Prop :=
  p.text = "" ∨ p.components = [.root] ∨ ∃ c, c ≠ .root ∧ p.components = [c]

theorem lone_iff : p.Lone ↔ p.components.length ≤ 1 := by
  rw [Lone, ← components_eq_nil_iff]
  constructor
  · rintro (h | h | ⟨c, -, h⟩) <;> simp [h]
  · intro h
    rcases hp : p.components with _ | ⟨c, _ | ⟨d, rest⟩⟩
    · exact .inl rfl
    · by_cases hc : c = .root
      · exact .inr (.inl (by rw [hc]))
      · exact .inr (.inr ⟨c, hc, rfl⟩)
    · rw [hp] at h
      simp at h

instance : Decidable p.Lone := decidable_of_iff _ lone_iff.symm

theorem importing_of_lone (hp : p.Lone) (q : Path) : p.importing q = q := by
  unfold importing
  split
  · next dir hdir =>
    have hnil : dir.components = [] := by
      have hlen := lone_iff.1 hp
      rw [components_parent? hdir, ← List.length_eq_zero_iff, List.length_dropLast]
      omega
    have hdir : dir = ⟨""⟩ := congrArg Path.mk (components_eq_nil_iff.1 hnil)
    rw [hdir, empty_join]
  · rfl

theorem components_importing_of_not_lone (hp : ¬p.Lone) (hq : q.isAbsolute = false) :
    (p.importing q).components = p.components.dropLast ++ dropHere q.components := by
  rw [lone_iff] at hp
  unfold importing
  split
  · next dir hdir =>
    have hcomponents := components_parent? hdir
    have htext : dir.text ≠ "" := by
      intro hempty
      rw [components_eq_nil_iff.2 hempty, eq_comm, ← List.length_eq_zero_iff, List.length_dropLast] at hcomponents
      omega
    rw [components_join htext hq, hcomponents]
  · next hnone => exact absurd (length_components_of_parent?_eq_none hnone) hp

theorem components_importing_eq (f i : Path) :
    (f.importing i).components =
      if i.isAbsolute ∨ f.Lone then i.components else f.components.dropLast ++ dropHere i.components := by
  split
  · next h =>
    rcases h with hi | hf
    · rw [importing_of_isAbsolute f hi]
    · rw [importing_of_lone hf]
  · next h =>
    obtain ⟨hi, hf⟩ := not_or.1 h
    exact components_importing_of_not_lone hf (by simpa using hi)

theorem components_slash (hp : p.text ≠ "") (hpart : '/' ∉ part) :
    components ⟨p.text ++ "/" ++ .ofList part⟩ =
      p.components ++ if isIdle part then [] else [component part] := by
  have htext : (⟨p.text ++ "/" ++ .ofList part⟩ : Path) = ⟨.ofList (p.text.toList ++ '/' :: part)⟩ := by
    apply congrArg Path.mk
    rw [String.ext_iff]
    simp
  have hhead : head ⟨.ofList (p.text.toList ++ '/' :: part)⟩ = p.head := by
    rw [head_append (mt String.toList_eq_nil_iff.1 hp), String.ofList_toList]
  have htrail : trail ⟨.ofList (p.text.toList ++ '/' :: part)⟩ = p.trail ++ steps [part] := by
    rw [trail, String.toList_ofList, splitSlash_append, splitSlash_of_not_mem hpart, steps_append]
    rfl
  rw [htext, components_eq, hhead, htrail, List.map_append, ← List.append_assoc, ← components_eq]
  cases hidle : isIdle part with
  | true => simp [steps_cons_of_idle hidle]
  | false => simp [steps_cons_of_not_idle hidle]

end Path

open LinkOrder.Path

/-- What a file at `f` means by importing `i` is told by components: those of `i` alone, or after all but the last of
those of `f`. The components of a path grow with each slash by what follows it. -/
theorem import_path_by_components (f i : Path) :
    ((f.importing i).components =
        if i.isAbsolute ∨ f.Lone then i.components else f.components.dropLast ++ dropHere i.components) ∧
      (∀ f' i' : Path, f'.components = f.components → i'.components = i.components →
        (f'.importing i').components = (f.importing i).components) ∧
      ∀ part, f.text ≠ "" → '/' ∉ part →
        components ⟨f.text ++ "/" ++ .ofList part⟩ =
          f.components ++ if isIdle part then [] else [component part] := by
  refine ⟨components_importing_eq f i, fun f' i' hf hi ↦ ?_, fun part ↦ components_slash⟩
  rw [components_importing_eq, components_importing_eq]
  simp only [← root_mem_components_iff, lone_iff, hf, hi]

end LinkOrder
