import LinkOrder.Proofs.Written

namespace LinkOrder.Markup

open Text

variable {l m rest content : Bytes} {e : Event} {events : List Event} {quote : Option UInt8}

/-- One markup, after any text: it is read as `e` whatever follows. -/
def Complete (l : Bytes) (e : Event) : Prop :=
  ∀ rest, read .whole (l ++ rest) = .event e rest

/-- Markups that are read as these events, with any text before, between and after them. -/
inductive Markups : Bytes → List Event → Prop
  | text {l : Bytes} (h : byte '<' ∉ l) : Markups l []
  | next {l m : Bytes} {e : Event} {events : List Event} (h : Complete l e) (hm : Markups m events) :
      Markups (l ++ m) (e :: events)

section Complete

variable {kind : BangKind} {seen : Bytes}

/- The lemmas here take a reading that stopped at `rest` and find that it stops there whatever `rest` is. Only a markup
that the end of the text may have ended needs `rest` not to be empty. -/

theorem BangKind.split?_append (h : kind.split? seen (m ++ rest) = some (content, rest)) (rest' : Bytes) :
    kind.split? seen (m ++ rest') = some (content, rest') := by
  induction m generalizing seen with
  | nil => exact absurd (length_split?_lt h) (Nat.lt_irrefl _)
  | cons b m ih =>
    rw [List.cons_append, split?] at h ⊢
    split at h
    · next hend =>
      obtain ⟨hcontent, hrest⟩ := Prod.mk.inj (Option.some.inj h)
      obtain rfl : m = [] := List.append_left_eq_self.1 hrest
      rw [if_pos hend, hcontent]
      rfl
    · next hend =>
      rw [if_neg hend]
      exact ih h

theorem BangKind.find?_append (h : kind.find? .whole (m ++ rest) = some (content, rest)) (rest' : Bytes) :
    kind.find? .whole (m ++ rest') = some (content, rest') := by
  cases kind with
  | comment => exact split?_append h rest'
  | cdata => exact split?_append h rest'
  | doctype =>
    simp only [find?, Delivery.divide, splitBlocks?, List.flatten_nil, List.append_nil] at h ⊢
    split at h
    · next hs =>
      obtain ⟨rfl, rfl⟩ := Prod.mk.inj (Option.some.inj h)
      rw [split?_append hs rest']
    · cases h

theorem cut_append (h : cut (m ++ rest) = (content, rest)) (hne : rest ≠ []) (rest' : Bytes) :
    cut (m ++ rest') = (content, rest') := by
  have hstop {u : Bytes} (hu : byte '>' ∉ u) (v : Bytes) : cut (u ++ byte '>' :: v) = (u, v) := by
    have hne : ∀ b ∈ u, (b != byte '>') = true := fun b hb ↦ bne_iff_ne.2 fun heq ↦ hu (heq ▸ hb)
    rw [cut, takeWhile_stop hne (by decide), dropWhile_stop hne (by decide)]
    rfl
  by_cases hm : byte '>' ∈ m
  · obtain ⟨u, v, rfl, hu⟩ := List.eq_append_cons_of_mem hm
    rw [List.append_assoc, List.cons_append, hstop hu] at h ⊢
    obtain ⟨rfl, hrest⟩ := Prod.mk.inj h
    obtain rfl : v = [] := List.append_left_eq_self.1 hrest
    rfl
  · have hlt : 0 < rest.length := List.length_pos_of_ne_nil hne
    have hle := length_dropWhile_le (· != byte '>') rest
    have hlength := congrArg (fun p ↦ p.2.length) h
    have hall : ∀ b ∈ m, (b != byte '>') = true := fun b hb ↦ bne_iff_ne.2 fun heq ↦ hm (heq ▸ hb)
    simp only [cut, List.dropWhile_append_of_pos hall, List.length_drop] at hlength
    omega

theorem cutUnquoted_append (h : cutUnquoted quote (m ++ rest) = (content, rest)) (hne : rest ≠ [])
    (rest' : Bytes) : cutUnquoted quote (m ++ rest') = (content, rest') := by
  induction m generalizing quote content with
  | nil =>
    obtain ⟨b, t, rfl⟩ := List.exists_cons_of_ne_nil hne
    have hlength := congrArg (fun p ↦ p.2.length) h
    cases quote with
    | none =>
      have hlt := length_cutUnquoted_lt b t
      exact absurd hlength (Nat.ne_of_lt hlt)
    | some q =>
      have hle := length_cutUnquoted_le (if b = q then none else some q) t
      simp only [List.nil_append, cutUnquoted, List.length_cons] at hlength
      omega
  | cons b m ih =>
    cases quote with
    | none =>
      simp only [List.cons_append, cutUnquoted] at h ⊢
      by_cases hb : b = byte '>'
      · simp only [if_pos hb] at h ⊢
        obtain ⟨rfl, hrest⟩ := Prod.mk.inj h
        obtain rfl : m = [] := List.append_left_eq_self.1 hrest
        rfl
      · simp only [if_neg hb] at h ⊢
        obtain ⟨rfl, hrest⟩ := Prod.mk.inj h
        rw [ih (Prod.ext rfl hrest)]
    | some q =>
      simp only [List.cons_append, cutUnquoted] at h ⊢
      obtain ⟨rfl, hrest⟩ := Prod.mk.inj h
      rw [ih (Prod.ext rfl hrest)]

theorem readBang_append (h : readBang .whole (m ++ rest) = .event e rest) (rest' : Bytes) :
    readBang .whole (m ++ rest') = .event e rest' := by
  cases m with
  | nil => exact absurd (length_readBang_lt h) (Nat.lt_irrefl _)
  | cons b m =>
    simp only [List.cons_append, readBang] at h ⊢
    cases hkind : BangKind.ofByte? b with
    | none => simp [hkind] at h
    | some kind =>
      simp only [hkind] at h ⊢
      cases hfind : kind.find? .whole (b :: (m ++ rest)) with
      | none => simp [hfind] at h
      | some found =>
        simp only [hfind] at h
        split at h
        · next hadmits =>
          cases h
          have hfind' := BangKind.find?_append (m := b :: m) hfind rest'
          rw [List.cons_append] at hfind'
          simp only [hfind', if_pos hadmits]
        · cases h

theorem readInstruction_append (h : readInstruction (m ++ rest) = .event e rest) (hne : rest ≠ [])
    (rest' : Bytes) : readInstruction (m ++ rest') = .event e rest' := by
  simp only [readInstruction] at h ⊢
  split at h
  · next hlast =>
    obtain ⟨rfl, hrest⟩ := Read.event.inj h
    rw [cut_append (Prod.ext rfl hrest) hne rest', if_pos hlast]
  · cases h

theorem readClosing_append (h : readClosing (m ++ rest) = .event e rest) (hne : rest ≠ [])
    (rest' : Bytes) : readClosing (m ++ rest') = .event e rest' := by
  simp only [readClosing] at h ⊢
  obtain ⟨rfl, hrest⟩ := Read.event.inj h
  rw [cut_append (Prod.ext rfl hrest) hne rest']

theorem readElement_append (h : readElement (m ++ rest) = .event e rest) (hne : rest ≠ [])
    (rest' : Bytes) : readElement (m ++ rest') = .event e rest' := by
  simp only [readElement] at h ⊢
  split at h
  · next hlast =>
    obtain ⟨rfl, hrest⟩ := Read.event.inj h
    rw [cutUnquoted_append (Prod.ext rfl hrest) hne rest', if_pos hlast]
  · next hlast =>
    obtain ⟨rfl, hrest⟩ := Read.event.inj h
    rw [cutUnquoted_append (Prod.ext rfl hrest) hne rest', if_neg hlast]

theorem readMarkup_append (h : readMarkup .whole (m ++ rest) = .event e rest) (hne : rest ≠ [])
    (rest' : Bytes) : readMarkup .whole (m ++ rest') = .event e rest' := by
  cases m with
  | nil => exact absurd (length_readMarkup_lt h) (Nat.lt_irrefl _)
  | cons b m =>
    rw [List.cons_append, readMarkup] at h ⊢
    by_cases hbang : b = byte '!'
    · rw [if_pos hbang] at h ⊢
      exact readBang_append h rest'
    by_cases hclosing : b = byte '/'
    · rw [if_neg hbang, if_pos hclosing] at h ⊢
      exact readClosing_append h hne rest'
    by_cases hinstruction : b = byte '?'
    · rw [if_neg hbang, if_neg hclosing, if_pos hinstruction] at h ⊢
      exact readInstruction_append h hne rest'
    · rw [if_neg hbang, if_neg hclosing, if_neg hinstruction] at h ⊢
      exact readElement_append (m := b :: m) h hne rest'

theorem read_of_not_mem {d : Delivery} (h : byte '<' ∉ l) (rest : Bytes) :
    read d (l ++ rest) = read d rest := by
  have hall : ∀ b ∈ l, (b != byte '<') = true := fun b hb ↦ bne_iff_ne.2 fun heq ↦ h (heq ▸ hb)
  rw [read, read, List.dropWhile_append_of_pos hall]

theorem read_markup {d : Delivery} (h : byte '<' ∉ l) (rest : Bytes) :
    read d (l ++ byte '<' :: rest) = readMarkup d rest := by
  rw [read_of_not_mem h, read, List.dropWhile_cons_of_neg (by simp)]
  rfl

theorem Complete.of_read (rest : Bytes) (hne : rest ≠ []) (h : read .whole (l ++ rest) = .event e rest) :
    Complete l e := by
  intro rest'
  by_cases hl : byte '<' ∈ l
  · obtain ⟨gap, m, rfl, hgap⟩ := List.eq_append_cons_of_mem hl
    rw [List.append_assoc, List.cons_append, read_markup hgap] at h ⊢
    exact readMarkup_append h hne rest'
  · rw [read_of_not_mem hl] at h
    exact absurd (length_read_lt h) (Nat.lt_irrefl _)

end Complete

theorem Document.ofBytes_of_not_mem (h : byte '<' ∉ l) (rest : Bytes) : ofBytes (l ++ rest) = ofBytes rest := by
  have hread := read_of_not_mem (d := .whole) h rest
  unfold ofBytes
  cases heq : read .whole rest with
  | eof => rw [arriving_of_eof heq, arriving_of_eof (hread.trans heq)]
  | failed e => rw [arriving_of_failed heq, arriving_of_failed (hread.trans heq)]
  | event e later => rw [arriving_of_event heq, arriving_of_event (hread.trans heq)]

/-- A text divided between two markups is read part by part. -/
theorem Markups.ofBytes_append (h : Markups l events) (rest : Bytes) :
    Document.ofBytes (l ++ rest) =
      ⟨events ++ (Document.ofBytes rest).events, (Document.ofBytes rest).fault⟩ := by
  induction h with
  | text h => exact Document.ofBytes_of_not_mem h rest
  | @next l m e events h _ ih =>
    rw [List.append_assoc, Document.ofBytes, Document.arriving_of_event (h (m ++ rest))]
    change (⟨e :: (Document.ofBytes (m ++ rest)).events, (Document.ofBytes (m ++ rest)).fault⟩ : Document) = _
    rw [ih]
    rfl

end LinkOrder.Markup
