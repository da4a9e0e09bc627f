namespace LinkOrder

/-- The name by which units refer to a definition. -/
abbrev Symbol := String

structure SymbolSet where
  toList : List Symbol
  sorted : toList.Pairwise (· < ·)
  deriving DecidableEq

namespace SymbolSet

instance : Membership Symbol SymbolSet := ⟨fun s a ↦ a ∈ s.toList⟩

instance (a : Symbol) (s : SymbolSet) : Decidable (a ∈ s) :=
  inferInstanceAs (Decidable (a ∈ s.toList))

instance : EmptyCollection SymbolSet := ⟨⟨[], .nil⟩⟩

instance : Inhabited SymbolSet := ⟨∅⟩

@[simp] theorem mem_toList {a : Symbol} {s : SymbolSet} : a ∈ s.toList ↔ a ∈ s := Iff.rfl

theorem toList_injective {s t : SymbolSet} (h : s.toList = t.toList) : s = t := by
  cases s
  cases t
  cases h
  rfl

theorem eq_of_pairwise {l m : List Symbol} (hl : l.Pairwise (· < ·)) (hm : m.Pairwise (· < ·))
    (h : ∀ a, a ∈ l ↔ a ∈ m) : l = m := by
  induction l generalizing m with
  | nil =>
    cases m with
    | nil => rfl
    | cons b m => exact absurd ((h b).2 List.mem_cons_self) List.not_mem_nil
  | cons a l ih =>
    cases m with
    | nil => exact absurd ((h a).1 List.mem_cons_self) List.not_mem_nil
    | cons b m =>
      obtain ⟨ha, hl'⟩ := List.pairwise_cons.1 hl
      obtain ⟨hb, hm'⟩ := List.pairwise_cons.1 hm
      have hab : a = b := by
        rcases List.mem_cons.1 ((h a).1 List.mem_cons_self) with hab | hab
        · exact hab
        · rcases List.mem_cons.1 ((h b).2 List.mem_cons_self) with hba | hba
          · exact hba.symm
          · exact absurd (ha b hba) (String.lt_asymm (hb a hab))
      subst hab
      have hlm : l = m := by
        refine ih hl' hm' fun c ↦ ⟨fun hc ↦ ?_, fun hc ↦ ?_⟩
        · refine (List.mem_cons.1 ((h c).1 (List.mem_cons_of_mem _ hc))).resolve_left fun heq ↦ ?_
          exact String.lt_irrefl c (heq ▸ ha c hc)
        · refine (List.mem_cons.1 ((h c).2 (List.mem_cons_of_mem _ hc))).resolve_left fun heq ↦ ?_
          exact String.lt_irrefl c (heq ▸ hb c hc)
      rw [hlm]

theorem ext {s t : SymbolSet} (h : ∀ a, a ∈ s ↔ a ∈ t) : s = t :=
  toList_injective (eq_of_pairwise s.sorted t.sorted h)

@[simp] theorem not_mem_empty (a : Symbol) : a ∉ (∅ : SymbolSet) := List.not_mem_nil

def place (a : Symbol) : List Symbol → List Symbol
  | [] => [a]
  | b :: l => if a < b then a :: b :: l else if a = b then b :: l else b :: place a l

theorem mem_place {a b : Symbol} {l : List Symbol} : b ∈ place a l ↔ b = a ∨ b ∈ l := by
  induction l with
  | nil => simp [place]
  | cons c l ih => grind [place]

theorem lt_of_not_lt_of_ne {a b : Symbol} (h : ¬a < b) (hne : a ≠ b) : b < a :=
  String.not_le.1 fun hab ↦ hne (String.le_antisymm hab (String.not_lt.1 h))

theorem pairwise_place {a : Symbol} {l : List Symbol} (h : l.Pairwise (· < ·)) :
    (place a l).Pairwise (· < ·) := by
  induction l with
  | nil => simp [place]
  | cons b l ih =>
    obtain ⟨hb, hl⟩ := List.pairwise_cons.1 h
    simp only [place]
    split
    · next hab =>
      refine List.pairwise_cons.2 ⟨fun c hc ↦ ?_, h⟩
      rcases List.mem_cons.1 hc with rfl | hc
      · exact hab
      · exact String.lt_trans hab (hb c hc)
    · next hab =>
      split
      · exact h
      · next hne =>
        refine List.pairwise_cons.2 ⟨fun c hc ↦ ?_, ih hl⟩
        rcases mem_place.1 hc with rfl | hc
        · exact lt_of_not_lt_of_ne hab hne
        · exact hb c hc

def insert (s : SymbolSet) (a : Symbol) : SymbolSet :=
  ⟨place a s.toList, pairwise_place s.sorted⟩

@[simp] theorem mem_insert {s : SymbolSet} {a b : Symbol} : b ∈ s.insert a ↔ b = a ∨ b ∈ s :=
  mem_place

def filter (s : SymbolSet) (p : Symbol → Bool) : SymbolSet :=
  ⟨s.toList.filter p, s.sorted.filter p⟩

@[simp] theorem mem_filter {s : SymbolSet} {p : Symbol → Bool} {a : Symbol} :
    a ∈ s.filter p ↔ a ∈ s ∧ p a = true :=
  List.mem_filter

def erase (s : SymbolSet) (a : Symbol) : SymbolSet :=
  s.filter (· ≠ a)

@[simp] theorem mem_erase {s : SymbolSet} {a b : Symbol} : b ∈ s.erase a ↔ b ∈ s ∧ b ≠ a := by
  simp [erase]

def ofList (l : List Symbol) : SymbolSet :=
  l.foldl insert ∅

theorem mem_foldl_insert {l : List Symbol} {s : SymbolSet} {a : Symbol} :
    a ∈ l.foldl insert s ↔ a ∈ s ∨ a ∈ l := by
  induction l generalizing s with
  | nil => simp
  | cons b l ih => simp only [List.foldl_cons, ih, mem_insert, List.mem_cons]; grind

@[simp] theorem mem_ofList {l : List Symbol} {a : Symbol} : a ∈ ofList l ↔ a ∈ l := by
  simp [ofList, mem_foldl_insert]

end SymbolSet

end LinkOrder
