import LinkOrder.Link.Report
import LinkOrder.Proofs.Written
import LinkOrder.UnitFile.Element
import Mathlib.Data.Nat.Digits.Defs

namespace LinkOrder.UnitFile

open Text Markup

variable {c : Char} {n m d : UInt64} {l : List Char} {s : String}

theorem digit?_eq_some_iff : digit? c = some d ↔ d.toNat < 10 ∧ c = Nat.digitChar d.toNat := by
  have hdigit : c.isDigit = true ↔ 48 ≤ c.toNat ∧ c.toNat ≤ 57 := Char.isDigit_iff_toNat
  unfold digit?
  constructor
  · intro h
    split at h
    · next hc =>
      rw [hdigit] at hc
      have hd : d.toNat = c.toNat - 48 := by
        cases h
        change (UInt64.ofNat (c.toNat - 48)).toNat = _
        rw [UInt64.toNat_ofNat']
        omega
      have hlt : d.toNat < 10 := by omega
      refine ⟨hlt, Char.toNat_inj.1 ?_⟩
      rw [Nat.toNat_digitChar_of_lt_ten hlt]
      omega
    · cases h
  · rintro ⟨hd, rfl⟩
    rw [if_pos (by rw [Nat.isDigit_digitChar, decide_eq_true hd])]
    change some (UInt64.ofNat ((Nat.digitChar d.toNat).toNat - 48)) = _
    rw [Nat.toNat_digitChar_sub_48_of_lt_ten hd, UInt64.ofNat_toNat]

theorem shiftIn?_fits_iff (hd : d.toNat < 10) :
    n ≤ 18446744073709551615 / 10 ∧ 10 * n ≤ 10 * n + d ↔ 10 * n.toNat + d.toNat < 2 ^ 64 := by
  have hlimit : n ≤ 18446744073709551615 / 10 ↔ n.toNat ≤ 1844674407370955161 := UInt64.le_iff_toNat_le
  have hprod : (10 * n).toNat = 10 * n.toNat % 2 ^ 64 := UInt64.toNat_mul 10 n
  rw [hlimit, UInt64.le_iff_toNat_le, UInt64.toNat_add, hprod]
  omega

theorem shiftIn?_eq_some_iff (hd : d.toNat < 10) : shiftIn? n d = some m ↔ m.toNat = 10 * n.toNat + d.toNat := by
  have hm := m.toNat_lt
  unfold shiftIn?
  split
  · next h =>
    rw [shiftIn?_fits_iff hd] at h
    have hsum : (10 * n + d).toNat = 10 * n.toNat + d.toNat := by
      rw [UInt64.toNat_add, UInt64.toNat_mul]
      change (10 * n.toNat % 2 ^ 64 + d.toNat) % 2 ^ 64 = _
      omega
    rw [Option.some_inj, ← UInt64.toNat_inj, hsum, eq_comm]
  · next h =>
    rw [shiftIn?_fits_iff hd] at h
    constructor
    · intro hnone
      cases hnone
    · intro heq
      omega

theorem readDigit?_eq_some_iff :
    readDigit? n c = some m ↔ ∃ d < 10, c = Nat.digitChar d ∧ m.toNat = 10 * n.toNat + d := by
  simp only [readDigit?, bind, Option.bind_eq_some_iff]
  constructor
  · rintro ⟨d, hd, hm⟩
    obtain ⟨hlt, rfl⟩ := digit?_eq_some_iff.1 hd
    exact ⟨d.toNat, hlt, rfl, (shiftIn?_eq_some_iff hlt).1 hm⟩
  · rintro ⟨d, hlt, rfl, hm⟩
    have hd : (UInt64.ofNat d).toNat = d := by
      rw [UInt64.toNat_ofNat']
      omega
    refine ⟨.ofNat d, digit?_eq_some_iff.2 (by rw [hd]; exact ⟨hlt, rfl⟩), ?_⟩
    rw [shiftIn?_eq_some_iff (by rwa [hd]), hd, hm]

theorem ofDigits_behind (ds : List Nat) (d n : Nat) :
    Nat.ofDigits 10 ((d :: ds).reverse ++ [n]) = Nat.ofDigits 10 (ds.reverse ++ [10 * n + d]) := by
  simp [Nat.ofDigits_append, Nat.ofDigits_cons]
  ring

theorem le_ofDigits_behind (ds : List Nat) (n : Nat) : n ≤ Nat.ofDigits 10 (ds.reverse ++ [n]) := by
  rw [Nat.ofDigits_append, Nat.ofDigits_singleton]
  exact (Nat.le_mul_of_pos_left n (Nat.pow_pos (by decide))).trans (Nat.le_add_left _ _)

/-- The loop reads digits behind a number, the most significant one first. -/
theorem foldlM_readDigit?_eq_some_iff :
    l.foldlM readDigit? n = some m ↔
      ∃ ds : List Nat, (∀ d ∈ ds, d < 10) ∧ l = ds.map Nat.digitChar ∧
        m.toNat = Nat.ofDigits 10 (ds.reverse ++ [n.toNat]) := by
  induction l generalizing n with
  | nil =>
    rw [List.foldlM_nil]
    constructor
    · intro h
      cases h
      exact ⟨[], by simp, rfl, by simp⟩
    · rintro ⟨ds, -, hl, hm⟩
      rw [List.nil_eq, List.map_eq_nil_iff] at hl
      rw [hl, List.reverse_nil, List.nil_append, Nat.ofDigits_singleton] at hm
      rw [UInt64.toNat_inj.1 hm]
      rfl
  | cons c l ih =>
    rw [List.foldlM_cons, Option.bind_eq_bind, Option.bind_eq_some_iff]
    constructor
    · rintro ⟨n', hread, hrest⟩
      obtain ⟨d, hd, rfl, hn'⟩ := readDigit?_eq_some_iff.1 hread
      obtain ⟨ds, hds, rfl, hm⟩ := ih.1 hrest
      refine ⟨d :: ds, List.forall_mem_cons.2 ⟨hd, hds⟩, rfl, ?_⟩
      rw [hm, hn', ofDigits_behind]
    · rintro ⟨ds, hds, hl, hm⟩
      obtain _ | ⟨d, ds⟩ := ds
      · cases hl
      · rw [List.map_cons, List.cons.injEq] at hl
        obtain ⟨hd, hds⟩ := List.forall_mem_cons.1 hds
        rw [ofDigits_behind] at hm
        have hlt : 10 * n.toNat + d < 2 ^ 64 := by
          have hle := le_ofDigits_behind ds (10 * n.toNat + d)
          have hm' := m.toNat_lt
          omega
        have hnext : (UInt64.ofNat (10 * n.toNat + d)).toNat = 10 * n.toNat + d := by
          rw [UInt64.toNat_ofNat', Nat.mod_eq_of_lt hlt]
        refine ⟨.ofNat (10 * n.toNat + d), readDigit?_eq_some_iff.2 ⟨d, hd, hl.1, hnext⟩, ih.2 ⟨ds, hds, hl.2, ?_⟩⟩
        rw [hnext, hm]

/-- The characters are decimal digits, one or more, of which `n` is the value. They may begin with zeros. -/
def IsDecimal (l : List Char) (n : Nat) : Prop :=
  ∃ ds : List Nat, ds ≠ [] ∧ (∀ d ∈ ds, d < 10) ∧ l = ds.map Nat.digitChar ∧ n = Nat.ofDigits 10 ds.reverse

/-- The text writes `n` in decimal digits, after a plus sign or none. -/
def IsNumeral (s : String) (n : Nat) : Prop :=
  IsDecimal s.toList n ∨ ∃ l, s.toList = '+' :: l ∧ IsDecimal l n

theorem digitsNumber?_eq_some_iff : digitsNumber? l = some n ↔ IsDecimal l n.toNat := by
  have hzero (ds : List Nat) : Nat.ofDigits 10 (ds.reverse ++ [(0 : UInt64).toNat]) = Nat.ofDigits 10 ds.reverse := by
    simp [Nat.ofDigits_append]
  cases l with
  | nil =>
    constructor
    · intro h
      cases h
    · rintro ⟨ds, hne, -, hl, -⟩
      exact absurd (List.map_eq_nil_iff.1 hl.symm) hne
  | cons c l =>
    change (c :: l).foldlM readDigit? 0 = some n ↔ _
    rw [foldlM_readDigit?_eq_some_iff]
    constructor
    · rintro ⟨ds, hds, hl, hn⟩
      refine ⟨ds, ?_, hds, hl, by rw [hn, hzero]⟩
      rintro rfl
      cases hl
    · rintro ⟨ds, -, hds, hl, hn⟩
      exact ⟨ds, hds, hl, by rw [hn, hzero]⟩

theorem not_isDecimal_plus (k : Nat) : ¬IsDecimal ('+' :: l) k := by
  rintro ⟨ds, hne, hds, hl, -⟩
  obtain _ | ⟨d, ds⟩ := ds
  · exact hne rfl
  · have hplus : '+' = Nat.digitChar d := (List.cons.inj hl).1
    have hnat := congrArg Char.toNat hplus
    rw [Nat.toNat_digitChar_of_lt_ten (hds d List.mem_cons_self)] at hnat
    have hcode : '+'.toNat = 43 := rfl
    omega

theorem number?_eq_some_iff : number? s = some n ↔ IsNumeral s n.toNat := by
  unfold number? IsNumeral
  split
  · next l hl =>
    rw [digitsNumber?_eq_some_iff, hl, or_iff_right (not_isDecimal_plus _)]
    simp
  · next hplus =>
    have hnone : ¬∃ l, s.toList = '+' :: l ∧ IsDecimal l n.toNat := by
      rintro ⟨l, hl, -⟩
      exact hplus l hl
    rw [digitsNumber?_eq_some_iff, or_iff_left hnone]

theorem IsDecimal.snoc {k d : Nat} (h : IsDecimal l k) (hd : d < 10) :
    IsDecimal (l ++ [Nat.digitChar d]) (10 * k + d) := by
  obtain ⟨ds, -, hds, rfl, rfl⟩ := h
  refine ⟨ds ++ [d], by simp, ?_, by simp, ?_⟩
  · intro x hx
    rcases List.mem_append.1 hx with hx | hx
    · exact hds x hx
    · rwa [List.mem_singleton.1 hx]
  · rw [List.reverse_append, List.reverse_singleton, List.singleton_append, Nat.ofDigits_cons]
    exact Nat.add_comm _ _

theorem isDecimal_toDigits (k : Nat) : IsDecimal (Nat.toDigits 10 k) k := by
  induction k using Nat.strongRecOn with
  | ind k ih =>
    rw [Nat.toDigits_eq_if (by decide)]
    split
    · next hk => exact ⟨[k], by simp, by simpa using hk, rfl, by simp⟩
    · have hlast := (ih (k / 10) (by omega)).snoc (Nat.mod_lt k (by decide : 10 > 0))
      rwa [Nat.div_add_mod] at hlast

theorem number?_toString (n : UInt64) : number? (toString n) = some n := by
  have hlist : (toString n).toList = Nat.toDigits 10 n.toNat := Nat.toList_repr
  exact number?_eq_some_iff.2 (.inl (hlist ▸ isDecimal_toDigits n.toNat))

theorem text_attributeOf (a : String × String) : UnitFile.text (attributeOf a) = .ok a.2 := by
  simp only [UnitFile.text, attributeOf, unescape_escape]
  change (decode (encode a.2)).mapError Error.invalidUtf8 = .ok a.2
  rw [decode_encode]
  rfl

theorem number_of_text {a : Attribute} {v : String} (hv : UnitFile.text a = .ok v) (key : String) :
    number key a = (number? v).elim (.error (.invalidNumber key v)) .ok := by
  simp only [number, hv, bind, Except.bind]
  cases number? v <;> rfl

theorem number?_eq_none_iff : number? s = none ↔ ¬∃ k ≤ 2 ^ 64 - 1, IsNumeral s k := by
  cases hs : number? s with
  | none =>
    refine iff_of_true rfl ?_
    rintro ⟨k, hk, hnumeral⟩
    have hfits : (UInt64.ofNat k).toNat = k := by
      rw [UInt64.toNat_ofNat']
      omega
    rw [← hfits, ← number?_eq_some_iff, hs] at hnumeral
    cases hnumeral
  | some n =>
    have hn := n.toNat_lt
    refine iff_of_false (Option.some_ne_none n) (not_not.2 ⟨n.toNat, ?_, number?_eq_some_iff.1 hs⟩)
    omega

theorem number_attributeOf (key key' : String) (n : UInt64) :
    number key (attributeOf (key', toString n)) = .ok n := by
  rw [number_of_text (text_attributeOf _), number?_toString]
  rfl

theorem encode_inj {s t : String} : encode s = encode t ↔ s = t := encode_injective.eq_iff

inductive NumberField
  | modified
  | size
  | optimizedSize

namespace NumberField

def key : NumberField → String
  | modified => "mod"
  | size => "size"
  | optimizedSize => "optimizedsize"

def get : NumberField → LinkUnit → Option UInt64
  | modified, u => u.modified
  | size, u => u.size
  | optimizedSize, u => u.optimizedSize

def set : NumberField → HeadDraft → UInt64 → HeadDraft
  | modified, h, n => { h with modified := some n }
  | size, h, n => { h with size := some n }
  | optimizedSize, h, n => { h with optimizedSize := some n }

theorem put_eq {field : NumberField} {a : Attribute} (ha : a.key = encode field.key) (h : HeadDraft) :
    h.put a = (number field.key a).map (field.set h) := by
  cases field <;> simp [HeadDraft.put, ha, key, encode_inj] <;> cases number _ a <;> rfl

theorem mem_reportAttributes {field : NumberField} {u : LinkUnit} {t : String} :
    (field.key, t) ∈ u.reportAttributes ↔ ∃ n, field.get u = some n ∧ t = toString n := by
  have hrepr (n : UInt64) : n.toNat.repr = toString n := rfl
  cases field <;> simp [LinkUnit.reportAttributes, key, get, hrepr, eq_comm]

end NumberField

/-- A number is read from a decimal numeral of at most 64 bits and from nothing else, and any other value is reported
with the name of its attribute. What a report says of a unit is such a numeral. -/
theorem numbers_are_read_exactly (field : NumberField) (a : Attribute) (v : String) (hv : UnitFile.text a = .ok v) :
    (∀ n, number field.key a = .ok n ↔ IsNumeral v n.toNat) ∧
      (number field.key a = .error (.invalidNumber field.key v) ↔ ¬∃ k ≤ 2 ^ 64 - 1, IsNumeral v k) ∧
      (a.key = encode field.key → ∀ h : HeadDraft, h.put a = (number field.key a).map (field.set h)) ∧
      ∀ (u : LinkUnit) (n : UInt64), field.get u = some n →
        ∃ t, (∀ t', (field.key, t') ∈ u.reportAttributes ↔ t' = t) ∧
          number field.key (attributeOf (field.key, t)) = .ok n := by
  refine ⟨fun n ↦ ?_, ?_, NumberField.put_eq, fun u n hn ↦ ⟨toString n, fun t ↦ ?_, number_attributeOf _ _ n⟩⟩
  · rw [← number?_eq_some_iff, number_of_text hv]
    cases number? v <;> simp
  · rw [← number?_eq_none_iff, number_of_text hv]
    cases number? v <;> simp
  · rw [NumberField.mem_reportAttributes, hn]
    simp

theorem greatest_size_is_read :
    UnitFile.text (attributeOf ("size", "+0018446744073709551615")) = .ok "+0018446744073709551615" ∧
      number "size" (attributeOf ("size", "+0018446744073709551615")) = .ok 18446744073709551615 ∧
      UnitFile.text (attributeOf ("size", "18446744073709551616")) = .ok "18446744073709551616" ∧
      ¬∃ k ≤ 2 ^ 64 - 1, IsNumeral "18446744073709551616" k := by
  have hfits := text_attributeOf ("size", "+0018446744073709551615")
  have hover := text_attributeOf ("size", "18446744073709551616")
  have hnumeral : IsNumeral "+0018446744073709551615" (18446744073709551615 : UInt64).toNat := by
    refine .inr ⟨_, rfl, [0, 0, 1, 8, 4, 4, 6, 7, 4, 4, 0, 7, 3, 7, 0, 9, 5, 5, 1, 6, 1, 5], ?_, ?_, ?_, ?_⟩
    · simp
    · decide
    · decide
    · decide
  have herror : number "size" (attributeOf ("size", "18446744073709551616")) =
      .error (.invalidNumber "size" "18446744073709551616") := by
    rw [number_of_text hover]
    rfl
  exact ⟨hfits, ((numbers_are_read_exactly .size _ _ hfits).1 _).2 hnumeral, hover,
    (numbers_are_read_exactly .size _ _ hover).2.1.1 herror⟩

end LinkOrder.UnitFile
