import LinkOrder.Markup.Document
import LinkOrder.Markup.Entity
import LinkOrder.Markup.Printer
import LinkOrder.Proofs.Encoding
import Mathlib.Data.List.Forall2
import Mathlib.Data.List.TakeWhile

namespace LinkOrder.Markup

open Text

variable {d : Delivery} {l m rest out : Bytes} {b : UInt8} {c : Char} {p : UInt8 → Bool}

theorem takeWhile_stop (h : ∀ x ∈ l, p x = true) (hb : p b = false) :
    (l ++ b :: rest).takeWhile p = l := by
  rw [List.takeWhile_append_of_pos h, List.takeWhile_cons_of_neg (by simp [hb]), List.append_nil]

theorem dropWhile_stop (h : ∀ x ∈ l, p x = true) (hb : p b = false) :
    (l ++ b :: rest).dropWhile p = b :: rest := by
  rw [List.dropWhile_append_of_pos h, List.dropWhile_cons_of_neg (by simp [hb])]

theorem encode_escape (value : String) :
    encode (escape value) = value.toList.flatMap fun c ↦ encode (escapeChar c) := by
  rw [escape, encode_join, List.flatMap_map]

theorem encode_toString (c : Char) : encode c.toString = String.utf8EncodeChar c := by
  simp [encode]

theorem byte_mem_utf8EncodeChar {a : Char} (ha : a.toNat < 128) :
    byte a ∈ String.utf8EncodeChar c ↔ a = c := by
  rw [← encode_toString, byte_mem_encode ha]
  simp

theorem escapeChar_cases (c : Char) :
    (∃ name, encode (escapeChar c) = byte '&' :: (encode name ++ [byte ';']) ∧
      named? (encode name) = some c ∧ (encode name).all (fun b ↦ b != byte '&' && b != byte ';') ∧
      byte '\x22' ∉ encode (escapeChar c)) ∨
      encode (escapeChar c) = String.utf8EncodeChar c ∧ c ≠ '&' ∧ c ≠ '\x22' := by
  by_cases hlt : c = '<'
  · exact .inl ⟨"lt", by subst hlt; decide⟩
  by_cases hgt : c = '>'
  · exact .inl ⟨"gt", by subst hgt; decide⟩
  by_cases hapos : c = '\x27'
  · exact .inl ⟨"apos", by subst hapos; decide⟩
  by_cases hamp : c = '&'
  · exact .inl ⟨"amp", by subst hamp; decide⟩
  by_cases hquot : c = '\x22'
  · exact .inl ⟨"quot", by subst hquot; decide⟩
  refine .inr ⟨?_, hamp, hquot⟩
  have hself : escapeChar c = c.toString := by
    unfold escapeChar
    split <;> simp_all
  rw [hself, encode_toString]

theorem unescapeFrom_plain {total : Nat} (h : byte '&' ∉ l)
    (hrest : ∀ pos, unescapeFrom total pos rest = .ok out) (pos : Nat) :
    unescapeFrom total pos (l ++ rest) = .ok (l ++ out) := by
  induction l generalizing pos with
  | nil => exact hrest pos
  | cons b l ih =>
    obtain ⟨hb, hl⟩ := not_or.1 fun hb ↦ h (List.mem_cons.2 hb)
    rw [List.cons_append, unescapeFrom, if_neg (Ne.symm hb), ih hl]
    rfl

theorem unescapeFrom_reference {total : Nat} {name : Bytes}
    (hname : ∀ b ∈ name, (b != byte '&' && b != byte ';') = true) (hc : named? name = some c)
    (hrest : ∀ pos, unescapeFrom total pos rest = .ok out) (pos : Nat) :
    unescapeFrom total pos (byte '&' :: (name ++ byte ';' :: rest)) =
      .ok (String.utf8EncodeChar c ++ out) := by
  have hcharacter (start stop : Nat) : character start stop name = .ok c := by
    unfold character
    rw [hc]
  rw [unescapeFrom, if_pos rfl]
  split
  · next heq => cases (dropWhile_stop hname (by simp)).symm.trans heq
  · next e rest' heq =>
    cases (dropWhile_stop hname (by simp)).symm.trans heq
    rw [if_pos rfl, takeWhile_stop hname (by simp), hcharacter, hrest]
    rfl

theorem unescapeFrom_escapeChar {total : Nat} (c : Char)
    (hrest : ∀ pos, unescapeFrom total pos rest = .ok out) (pos : Nat) :
    unescapeFrom total pos (encode (escapeChar c) ++ rest) =
      .ok (String.utf8EncodeChar c ++ out) := by
  rcases escapeChar_cases c with ⟨name, heq, hc, hname, -⟩ | ⟨heq, hamp, -⟩
  · rw [heq, List.cons_append, List.append_assoc]
    exact unescapeFrom_reference (List.all_eq_true.1 hname) hc hrest pos
  · rw [heq]
    refine unescapeFrom_plain (fun hmem ↦ ?_) hrest pos
    exact hamp ((byte_mem_utf8EncodeChar (by decide)).1 hmem).symm

theorem unescape_escape (value : String) : unescape (encode (escape value)) = .ok (encode value) := by
  rw [unescape, encode_escape]
  generalize (value.toList.flatMap fun c ↦ encode (escapeChar c)).length = total
  have hfrom (chars : List Char) (pos : Nat) :
      unescapeFrom total pos (chars.flatMap fun c ↦ encode (escapeChar c)) =
        .ok (chars.flatMap String.utf8EncodeChar) := by
    induction chars generalizing pos with
    | nil => simp [unescapeFrom]
    | cons c chars ih => exact unescapeFrom_escapeChar c ih pos
  exact hfrom value.toList 0

theorem quote_not_mem_escape (value : String) : byte '\x22' ∉ encode (escape value) := by
  rw [encode_escape, List.mem_flatMap]
  rintro ⟨c, -, hmem⟩
  rcases escapeChar_cases c with ⟨name, -, -, -, hquot⟩ | ⟨heq, -, hquot⟩
  · exact hquot hmem
  · rw [heq] at hmem
    exact hquot ((byte_mem_utf8EncodeChar (by decide)).1 hmem).symm

def blanks : List Char := [' ', '\t', '\r', '\n']

def Blank (gap : String) : Prop := ∀ c ∈ gap.toList, c ∈ blanks

instance (gap : String) : Decidable (Blank gap) := List.decidableBAll (· ∈ blanks) gap.toList

def IsName (name : String) : Prop := name.toList ≠ [] ∧ ∀ c ∈ name.toList, c.isAlpha = true

instance (name : String) : Decidable (IsName name) :=
  @instDecidableAnd _ _ _ (List.decidableBAll (·.isAlpha = true) name.toList)

def IsTagName (name : String) : Prop :=
  name.toList ≠ [] ∧ ∀ c ∈ name.toList, c.isAlpha = true ∨ c = '-'

instance (name : String) : Decidable (IsTagName name) :=
  @instDecidableAnd _ _ _ (List.decidableBAll (fun c ↦ c.isAlpha = true ∨ c = '-') name.toList)

theorem IsName.isTagName {name : String} (h : IsName name) : IsTagName name :=
  ⟨h.1, fun c hc ↦ .inl (h.2 c hc)⟩

def IsKey (key : String) : Prop :=
  key.toList ≠ [] ∧ ∀ c ∈ key.toList, c ∉ blanks ∧ c ∉ ['=', '>', '\x27', '\x22']

instance (key : String) : Decidable (IsKey key) :=
  @instDecidableAnd _ _ _
    (List.decidableBAll (fun c ↦ c ∉ blanks ∧ c ∉ ['=', '>', '\x27', '\x22']) key.toList)

/-- Attributes in a tag, in this order: each comes after blanks and has its value in double quotes. -/
inductive AttributesWritten : List (String × String) → String → Prop
  | nil {gap : String} (hgap : Blank gap) : AttributesWritten [] gap
  | cons {gap key value text : String} {attributes : List (String × String)} (hgap : Blank gap)
      (hne : gap ≠ "") (hkey : IsKey key) (h : AttributesWritten attributes text) :
      AttributesWritten ((key, value) :: attributes)
        (gap ++ key ++ "=\"" ++ escape value ++ "\"" ++ text)

/-- One tag. -/
inductive Line.Written : Line → String → Prop
  | opening {name text : String} {attributes : List (String × String)} (hname : IsName name)
      (h : AttributesWritten attributes text) :
      Written (.opening name attributes) ("<" ++ name ++ text ++ ">")
  | single {name text : String} {attributes : List (String × String)} (hname : IsName name)
      (h : AttributesWritten attributes text) :
      Written (.single name attributes) ("<" ++ name ++ text ++ "/>")
  | closing {name gap : String} (hname : IsName name) (hgap : Blank gap) :
      Written (.closing name) ("</" ++ name ++ gap ++ ">")

/-- Tags with any text before, between and after them. -/
inductive Written : List Line → String → Prop
  | nil {gap : String} (hgap : '<' ∉ gap.toList) : Written [] gap
  | cons {gap text rest : String} {line : Line} {lines : List Line} (hgap : '<' ∉ gap.toList)
      (hline : line.Written text) (h : Written lines rest) :
      Written (line :: lines) (gap ++ text ++ rest)

theorem ne_byte_of_mem {s : String} {a : Char} (ha : a.toNat < 128) (h : a ∉ s.toList)
    (hb : b ∈ encode s) : b ≠ byte a := by
  rintro rfl
  exact h ((byte_mem_encode ha).1 hb)

theorem bne_byte_of_not_mem {s : String} {a : Char} (ha : a.toNat < 128) (h : a ∉ s.toList) :
    ∀ b ∈ encode s, (b != byte a) = true := by
  intro b hb
  rw [bne_iff_ne]
  exact ne_byte_of_mem ha h hb

theorem isSpace_of_blank {gap : String} (h : Blank gap) : ∀ b ∈ encode gap, isSpace b = true := by
  intro b hb
  obtain ⟨c, hc, hmem⟩ := List.mem_flatMap.1 hb
  have hblank := h c hc
  simp only [blanks, List.mem_cons, List.not_mem_nil, or_false] at hblank
  rcases hblank with rfl | rfl | rfl | rfl <;>
    rw [utf8EncodeChar_of_lt (by decide), List.mem_singleton] at hmem <;> rw [hmem] <;> decide

theorem not_isSpace_of_mem {s : String} (h : ∀ a ∈ blanks, a ∉ s.toList) (hb : b ∈ encode s) :
    isSpace b = false := by
  have hascii : ∀ a ∈ blanks, a.toNat < 128 := by simp [blanks]
  have hne (a : Char) (ha : a ∈ blanks) : b ≠ byte a := ne_byte_of_mem (hascii a ha) (h a ha) hb
  simp [isSpace, hne ' ' (by decide), hne '\t' (by decide), hne '\r' (by decide), hne '\n' (by decide)]

theorem isKeyByte_of_isKey {key : String} (h : IsKey key) : ∀ b ∈ encode key, isKeyByte b = true := by
  intro b hb
  have hequals : b ≠ byte '=' := ne_byte_of_mem (by decide) (fun hc ↦ (h.2 _ hc).2 (by decide)) hb
  simp [isKeyByte, hequals, not_isSpace_of_mem (fun a ha hc ↦ (h.2 a hc).1 ha) hb]

theorem encode_ne_nil {s : String} (h : s.toList ≠ []) : encode s ≠ [] := by
  intro hnil
  have hs : encode s = encode "" := hnil
  exact h (by rw [encode_injective hs]; rfl)

theorem readAttribute_written {gap key value rest : Bytes} (hgap : ∀ b ∈ gap, isSpace b = true)
    (hne : key ≠ []) (hkey : ∀ b ∈ key, isKeyByte b = true) (hvalue : byte '\x22' ∉ value) :
    readAttribute (gap ++ (key ++ byte '=' :: byte '\x22' :: (value ++ byte '\x22' :: rest))) =
      some (some ⟨key, value⟩, rest) := by
  obtain ⟨b, t, rfl⟩ := List.exists_cons_of_ne_nil hne
  have hb : isSpace b = false := by
    have hkeyb := hkey b List.mem_cons_self
    simp only [isKeyByte, Bool.and_eq_true, Bool.not_eq_true'] at hkeyb
    exact hkeyb.2
  have ht : ∀ x ∈ t, isKeyByte x = true := fun x hx ↦ hkey x (List.mem_cons_of_mem _ hx)
  have hvalue' : ∀ x ∈ value, (x != byte '\x22') = true := by
    intro x hx
    rw [bne_iff_ne]
    rintro rfl
    exact hvalue hx
  unfold readAttribute skipSpace
  rw [List.cons_append, dropWhile_stop hgap hb]
  dsimp only
  rw [dropWhile_stop ht (by decide), takeWhile_stop ht (by decide),
    List.dropWhile_cons_of_neg (by decide)]
  dsimp only
  rw [if_pos rfl, List.dropWhile_cons_of_neg (by decide), readValue, if_pos (by decide),
    dropWhile_stop hvalue' (by simp), takeWhile_stop hvalue' (by simp)]

def attributeOf (a : String × String) : Attribute := ⟨encode a.1, encode (escape a.2)⟩

namespace AttributesWritten

variable {attributes : List (String × String)} {text : String}

theorem encode_cons (gap key value text : String) :
    encode (gap ++ key ++ "=\"" ++ escape value ++ "\"" ++ text) =
      encode gap ++ (encode key ++ byte '=' :: byte '\x22' ::
        (encode (escape value) ++ byte '\x22' :: encode text)) := by
  have hequals : encode "=\"" = [byte '=', byte '\x22'] := by decide
  have hquote : encode "\"" = [byte '\x22'] := by decide
  simp [hequals, hquote]

theorem attributesOf_eq (h : AttributesWritten attributes text) :
    attributesOf (encode text) = attributes.map attributeOf := by
  induction h with
  | @nil gap hgap =>
    refine attributesOf_of_none ?_
    have hskip : skipSpace (encode gap) = [] := by
      rw [skipSpace, List.dropWhile_eq_nil_iff]
      exact isSpace_of_blank hgap
    rw [readAttribute, hskip]
  | @cons gap key value text attributes hgap hne hkey h ih =>
    rw [encode_cons, attributesOf_of_some (readAttribute_written (isSpace_of_blank hgap)
      (encode_ne_nil hkey.1) (isKeyByte_of_isKey hkey) (quote_not_mem_escape value)), ih]
    rfl

theorem isSpace_head (h : AttributesWritten attributes text) (ht : encode text = b :: rest) :
    isSpace b = true := by
  cases h with
  | nil hgap => exact isSpace_of_blank hgap b (ht ▸ List.mem_cons_self)
  | @cons gap key value text attributes hgap hne hkey h =>
    have hgap_ne : gap.toList ≠ [] := fun hnil ↦ hne (String.toList_inj.1 hnil)
    obtain ⟨b', gap', heq⟩ := List.exists_cons_of_ne_nil (encode_ne_nil hgap_ne)
    rw [encode_cons, heq, List.cons_append] at ht
    cases ht
    exact isSpace_of_blank hgap b (heq ▸ List.mem_cons_self)

theorem getLast?_ne (h : AttributesWritten attributes text) :
    (encode text).getLast? ≠ some (byte '/') := by
  induction h with
  | nil hgap =>
    intro hlast
    have hspace := isSpace_of_blank hgap _ (List.mem_of_getLast? hlast)
    revert hspace
    decide
  | @cons gap key value text attributes hgap hne hkey h ih =>
    rw [encode_cons]
    cases hlast : (encode text).getLast? with
    | none =>
      simp [List.getLast?_append, List.getLast?_cons, hlast]
      decide
    | some b =>
      rw [hlast] at ih
      simpa [List.getLast?_append, List.getLast?_cons, hlast] using ih

end AttributesWritten

/-- Bytes that leave no quote open and do not end the tag. -/
def Skips (l : Bytes) : Prop :=
  ∀ rest, cutUnquoted none (l ++ rest) = (l ++ (cutUnquoted none rest).1, (cutUnquoted none rest).2)

namespace Skips

theorem append (hl : Skips l) (hm : Skips m) : Skips (l ++ m) := by
  intro rest
  rw [List.append_assoc, hl, hm, List.append_assoc]

theorem plain (h : ∀ b ∈ l, b ≠ byte '>' ∧ b ≠ byte '\x27' ∧ b ≠ byte '\x22') : Skips l := by
  intro rest
  induction l with
  | nil => rfl
  | cons b l ih =>
    obtain ⟨hgt, hapos, hquot⟩ := h b List.mem_cons_self
    have hl := ih fun x hx ↦ h x (List.mem_cons_of_mem _ hx)
    simp [cutUnquoted, hgt, hapos, hquot, hl]

theorem of_text {s : String} (h : ∀ a ∈ ['>', '\x27', '\x22'], a ∉ s.toList) : Skips (encode s) :=
  .plain fun _ hb ↦ ⟨ne_byte_of_mem (by decide) (h _ (by decide)) hb,
    ne_byte_of_mem (by decide) (h _ (by decide)) hb, ne_byte_of_mem (by decide) (h _ (by decide)) hb⟩

theorem cutUnquoted_some {q : UInt8} (h : q ∉ l) (rest : Bytes) :
    cutUnquoted (some q) (l ++ q :: rest) =
      (l ++ q :: (cutUnquoted none rest).1, (cutUnquoted none rest).2) := by
  induction l with
  | nil => simp [cutUnquoted]
  | cons b l ih =>
    obtain ⟨hb, hl⟩ := not_or.1 fun hb ↦ h (List.mem_cons.2 hb)
    simp [cutUnquoted, Ne.symm hb, ih hl]

theorem quoted (h : byte '\x22' ∉ l) : Skips (byte '\x22' :: (l ++ [byte '\x22'])) := by
  intro rest
  have hquot : byte '\x22' ≠ byte '>' := by decide
  simp [cutUnquoted, hquot, cutUnquoted_some h]

end Skips

theorem AttributesWritten.skips {attributes : List (String × String)} {text : String}
    (h : AttributesWritten attributes text) : Skips (encode text) := by
  have hblank {gap : String} (hgap : Blank gap) : Skips (encode gap) := by
    have hnot : ∀ a ∈ ['>', '\x27', '\x22'], a ∉ blanks := by simp [blanks]
    exact .of_text fun a ha hmem ↦ hnot a ha (hgap a hmem)
  induction h with
  | nil hgap => exact hblank hgap
  | @cons gap key value text attributes hgap hne hkey h ih =>
    have hkey' : Skips (encode key) :=
      .of_text fun a ha hmem ↦ (hkey.2 a hmem).2 (List.mem_cons_of_mem _ ha)
    have hequals : Skips [byte '='] := .plain (List.forall_mem_singleton.2 (by decide))
    have hvalue := Skips.quoted (quote_not_mem_escape value)
    have hall := (hblank hgap).append (hkey'.append (hequals.append (hvalue.append ih)))
    rw [encode_cons]
    simpa using hall

namespace IsTagName

variable {name : String}

theorem not_mem {a : Char} (h : IsTagName name) (ha : (a.isAlpha || a == '-') = false) :
    a ∉ name.toList := by
  intro hmem
  have hname := h.2 a hmem
  simp only [Bool.or_eq_false_iff, beq_eq_false_iff_ne] at ha
  rcases hname with hname | hname
  · rw [hname] at ha
    cases ha.1
  · exact ha.2 hname

theorem ne_byte {a : Char} (h : IsTagName name) (hlt : a.toNat < 128)
    (ha : (a.isAlpha || a == '-') = false) (hb : b ∈ encode name) : b ≠ byte a :=
  ne_byte_of_mem hlt (h.not_mem ha) hb

theorem skips (h : IsTagName name) : Skips (encode name) := by
  have hnone : ∀ a ∈ ['>', '\x27', '\x22'], (a.isAlpha || a == '-') = false := by simp
  exact .of_text fun a ha ↦ h.not_mem (hnone a ha)

theorem not_isSpace (h : IsTagName name) : ∀ b ∈ encode name, isClosingSpace b = false := by
  intro b hb
  have hnone : ∀ a ∈ blanks, (a.isAlpha || a == '-') = false := by simp [blanks]
  have hfeed : b ≠ 0x0c := h.ne_byte (a := '\x0c') (by decide) (by decide) hb
  simp [isClosingSpace, hfeed, not_isSpace_of_mem (fun a ha ↦ h.not_mem (hnone a ha)) hb]

end IsTagName

variable {name text gap : String} {attributes : List (String × String)}

theorem ofContent_written (hname : IsTagName name) (h : AttributesWritten attributes text) :
    Tag.ofContent (encode name ++ encode text) = ⟨encode name, encode text⟩ := by
  have hspace : ∀ b ∈ encode name, (!isSpace b) = true := by
    intro b hb
    have hb' := hname.not_isSpace b hb
    simp only [isClosingSpace, Bool.or_eq_false_iff] at hb'
    simp [hb'.1]
  rw [Tag.ofContent, List.takeWhile_append_of_pos hspace, List.dropWhile_append_of_pos hspace]
  cases ht : encode text with
  | nil => simp
  | cons b rest => simp [h.isSpace_head ht]

theorem readElement_opening (hname : IsTagName name) (h : AttributesWritten attributes text)
    (rest : Bytes) :
    readElement (encode name ++ encode text ++ byte '>' :: rest) =
      .event (.opened ⟨encode name, encode text⟩) rest := by
  have hcut : cutUnquoted none (encode name ++ encode text ++ byte '>' :: rest) =
      (encode name ++ encode text, rest) := by
    rw [hname.skips.append h.skips]
    simp [cutUnquoted]
  have hlast : (encode name).getLast? ≠ some (byte '/') := fun hlast ↦
    hname.ne_byte (by decide) (by decide) (List.mem_of_getLast? hlast) rfl
  rw [readElement, hcut]
  simp [h.getLast?_ne, hlast, ofContent_written hname h]

theorem readElement_single (hname : IsTagName name) (h : AttributesWritten attributes text)
    (rest : Bytes) :
    readElement (encode name ++ encode text ++ byte '/' :: byte '>' :: rest) =
      .event (.empty ⟨encode name, encode text⟩) rest := by
  have hslash : Skips [byte '/'] := .plain (List.forall_mem_singleton.2 (by decide))
  have hcut : cutUnquoted none (encode name ++ encode text ++ byte '/' :: byte '>' :: rest) =
      (encode name ++ encode text ++ [byte '/'], rest) := by
    have hall := (hname.skips.append h.skips).append hslash (byte '>' :: rest)
    simpa [cutUnquoted] using hall
  rw [readElement, hcut]
  simp [ofContent_written hname h]

theorem closingName_written (hname : IsTagName name) (hgap : Blank gap) :
    closingName (encode name ++ encode gap) = encode name := by
  have hgap' : ∀ b ∈ (encode gap).reverse, isClosingSpace b = true := by
    intro b hb
    simp [isClosingSpace, isSpace_of_blank hgap b (List.mem_reverse.1 hb)]
  obtain ⟨b, t, hrev⟩ := List.exists_cons_of_ne_nil
    (List.reverse_ne_nil_iff.2 (encode_ne_nil hname.1))
  have hb := hname.not_isSpace b (List.mem_reverse.1 (hrev ▸ List.mem_cons_self))
  have hall : (encode name ++ encode gap).all isClosingSpace = false := by
    rw [← List.all_reverse, List.reverse_append, hrev]
    simp [hb]
  rw [closingName, hall, List.reverse_append, hrev]
  simp only [Bool.false_eq_true, if_false]
  rw [dropWhile_stop hgap' hb, ← hrev, List.reverse_reverse]

theorem readClosing_written (hname : IsTagName name) (hgap : Blank gap) (rest : Bytes) :
    readClosing (encode name ++ encode gap ++ byte '>' :: rest) =
      .event (.closed (encode name)) rest := by
  have hcontent : ∀ b ∈ encode name ++ encode gap, (b != byte '>') = true := by
    intro b hb
    rcases List.mem_append.1 hb with hb | hb
    · exact bne_byte_of_not_mem (by decide) (hname.not_mem (by decide)) b hb
    · exact bne_byte_of_not_mem (by decide) (fun hmem ↦ absurd (hgap _ hmem) (by decide)) b hb
  rw [readClosing, cut, takeWhile_stop hcontent (by decide), dropWhile_stop hcontent (by decide)]
  simp [closingName_written hname hgap]

theorem read_after_text (hgap : '<' ∉ gap.toList) (rest : Bytes) :
    read d (encode gap ++ byte '<' :: rest) = readMarkup d rest := by
  rw [read, dropWhile_stop (bne_byte_of_not_mem (by decide) hgap) (by decide)]
  rfl

theorem readMarkup_name (hname : IsTagName name) (rest : Bytes) :
    readMarkup d (encode name ++ rest) = readElement (encode name ++ rest) := by
  obtain ⟨b, t, heq⟩ := List.exists_cons_of_ne_nil (encode_ne_nil hname.1)
  have hne (a : Char) (hlt : a.toNat < 128) (ha : (a.isAlpha || a == '-') = false) : b ≠ byte a :=
    hname.ne_byte hlt ha (heq ▸ List.mem_cons_self)
  rw [heq, List.cons_append, readMarkup, if_neg (hne '!' (by decide) (by decide)),
    if_neg (hne '/' (by decide) (by decide)), if_neg (hne '?' (by decide) (by decide))]

/-- The event in which a tag is read. -/
inductive Line.Gives : Line → Event → Prop
  | opening {name : String} {attributes : List (String × String)} {tag : Tag}
      (hname : tag.name = encode name) (hattributes : tag.attributeList = attributes.map attributeOf) :
      Gives (.opening name attributes) (.opened tag)
  | single {name : String} {attributes : List (String × String)} {tag : Tag}
      (hname : tag.name = encode name) (hattributes : tag.attributeList = attributes.map attributeOf) :
      Gives (.single name attributes) (.empty tag)
  | closing {name : String} : Gives (.closing name) (.closed (encode name))

/-- After any text, what is written as `text` is read in the event of this tag, whatever comes next. -/
def Line.Reads (line : Line) (text : String) : Prop :=
  ∀ d gap rest, '<' ∉ gap.toList →
    ∃ e, line.Gives e ∧ Markup.read d (encode gap ++ (encode text ++ rest)) = .event e rest

namespace Line.Reads

theorem opening (hname : IsTagName name) (h : AttributesWritten attributes text) :
    Reads (.opening name attributes) ("<" ++ name ++ text ++ ">") := by
  intro d gap rest hgap
  refine ⟨.opened ⟨encode name, encode text⟩, .opening rfl h.attributesOf_eq, ?_⟩
  have htext : encode ("<" ++ name ++ text ++ ">") ++ rest =
      byte '<' :: (encode name ++ (encode text ++ byte '>' :: rest)) := by
    have hopen : encode "<" = [byte '<'] := by decide
    have hclose : encode ">" = [byte '>'] := by decide
    simp [hopen, hclose]
  rw [htext, read_after_text hgap, readMarkup_name hname, ← List.append_assoc,
    readElement_opening hname h]

theorem single (hname : IsTagName name) (h : AttributesWritten attributes text) :
    Reads (.single name attributes) ("<" ++ name ++ text ++ "/>") := by
  intro d gap rest hgap
  refine ⟨.empty ⟨encode name, encode text⟩, .single rfl h.attributesOf_eq, ?_⟩
  have htext : encode ("<" ++ name ++ text ++ "/>") ++ rest =
      byte '<' :: (encode name ++ (encode text ++ byte '/' :: byte '>' :: rest)) := by
    have hopen : encode "<" = [byte '<'] := by decide
    have hclose : encode "/>" = [byte '/', byte '>'] := by decide
    simp [hopen, hclose]
  rw [htext, read_after_text hgap, readMarkup_name hname, ← List.append_assoc,
    readElement_single hname h]

theorem closing (hname : IsTagName name) (hblank : Blank text) :
    Reads (.closing name) ("</" ++ name ++ text ++ ">") := by
  intro d gap rest hgap
  refine ⟨_, .closing, ?_⟩
  have htext : encode ("</" ++ name ++ text ++ ">") ++ rest =
      byte '<' :: byte '/' :: (encode name ++ encode text ++ byte '>' :: rest) := by
    have hopen : encode "</" = [byte '<', byte '/'] := by decide
    have hclose : encode ">" = [byte '>'] := by decide
    simp [hopen, hclose]
  rw [htext, read_after_text hgap, readMarkup, if_neg (by decide), if_pos rfl,
    readClosing_written hname hblank]

end Line.Reads

theorem Line.Written.reads {line : Line} (h : line.Written text) : line.Reads text := by
  cases h with
  | opening hname h => exact .opening hname.isTagName h
  | single hname h => exact .single hname.isTagName h
  | closing hname hgap => exact .closing hname.isTagName hgap

/-- As `Written`, for any way `R` to write one tag. -/
inductive Between (R : Line → String → Prop) : List Line → String → Prop
  | nil {gap : String} (hgap : '<' ∉ gap.toList) : Between R [] gap
  | cons {gap text rest : String} {line : Line} {lines : List Line} (hgap : '<' ∉ gap.toList)
      (hline : R line text) (h : Between R lines rest) :
      Between R (line :: lines) (gap ++ text ++ rest)

theorem between_iff {lines : List Line} : Between Line.Written lines text ↔ Written lines text := by
  constructor
  · intro h
    induction h with
    | nil hgap => exact .nil hgap
    | cons hgap hline _ ih => exact .cons hgap hline ih
  · intro h
    induction h with
    | nil hgap => exact .nil hgap
    | cons hgap hline _ ih => exact .cons hgap hline ih

namespace Between

variable {R S : Line → String → Prop} {lines : List Line}

theorem mono (h : Between R lines text) (hRS : ∀ line text, R line text → S line text) :
    Between S lines text := by
  induction h with
  | nil hgap => exact .nil hgap
  | cons hgap hline _ ih => exact .cons hgap (hRS _ _ hline) ih

theorem arriving (h : Between Line.Reads lines text) (d : Delivery) :
    ∃ events, Document.arriving d (encode text) = ⟨events, none⟩ ∧
      List.Forall₂ Line.Gives lines events := by
  induction h with
  | @nil gap hgap =>
    refine ⟨[], Document.arriving_of_eof ?_, .nil⟩
    rw [read, List.dropWhile_eq_nil_iff.2 (bne_byte_of_not_mem (by decide) hgap)]
    rfl
  | @cons gap text rest line lines hgap hline _ ih =>
    obtain ⟨events, hrest, hgives⟩ := ih
    obtain ⟨e, he, hread⟩ := hline d gap (encode rest) hgap
    rw [← List.append_assoc, ← encode_append, ← encode_append] at hread
    refine ⟨e :: events, ?_, .cons he hgives⟩
    rw [Document.arriving_of_event hread, hrest]

theorem after_text (hgap : '<' ∉ gap.toList) (h : Between R lines text) :
    Between R lines (gap ++ text) := by
  have happend {gap' : String} (hgap' : '<' ∉ gap'.toList) : '<' ∉ (gap ++ gap').toList := by
    rw [String.toList_append, List.mem_append, not_or]
    exact ⟨hgap, hgap'⟩
  cases h with
  | nil hgap' => exact .nil (happend hgap')
  | cons hgap' hline hrest =>
    rw [← String.append_assoc, ← String.append_assoc]
    exact .cons (happend hgap') hline hrest

theorem print (h : ∀ line ∈ lines, R line line.print) : Between R lines (Markup.print lines) := by
  have hdepth (depth : Nat) : Between R lines ("\n".intercalate (printLines depth lines)) := by
    induction lines generalizing depth with
    | nil =>
      rw [printLines, String.intercalate_nil]
      exact .nil (by decide)
    | cons line lines ih =>
      have hline := h line List.mem_cons_self
      have hrest := ih (fun x hx ↦ h x (List.mem_cons_of_mem _ hx)) (line.depths depth).2
      have hgap : '<' ∉ (indentation (line.depths depth).1).toList := by
        rw [indentation, String.toList_ofList, List.mem_replicate]
        exact fun hmem ↦ absurd hmem.2 (by decide)
      change Between R (line :: lines)
        ("\n".intercalate ((_ ++ line.print) :: printLines (line.depths depth).2 lines))
      cases lines with
      | nil =>
        have hall := Between.cons hgap hline hrest
        rw [printLines, String.intercalate_nil, String.append_empty] at hall
        rw [printLines, String.intercalate_singleton]
        exact hall
      | cons next lines =>
        have hnext : printLines (line.depths depth).2 (next :: lines) ≠ [] := List.cons_ne_nil _ _
        rw [String.intercalate_cons_of_ne_nil hnext, String.append_assoc]
        exact .cons hgap hline (.after_text (by decide) hrest)
  exact hdepth 0

end Between

theorem Written.arriving {lines : List Line} (h : Written lines text) (d : Delivery) :
    ∃ events, Document.arriving d (encode text) = ⟨events, none⟩ ∧
      List.Forall₂ Line.Gives lines events := by
  have hreads : Between Line.Reads lines text := (between_iff.2 h).mono fun _ _ ↦ Line.Written.reads
  exact hreads.arriving d

theorem AttributesWritten.print (h : ∀ a ∈ attributes, IsKey a.1) :
    AttributesWritten attributes (String.join (attributes.map printAttribute)) := by
  induction attributes with
  | nil => exact .nil (by decide)
  | cons a attributes ih =>
    have hrest := ih fun x hx ↦ h x (List.mem_cons_of_mem _ hx)
    have hprint : String.join ((a :: attributes).map printAttribute) =
        " " ++ a.1 ++ "=\"" ++ escape a.2 ++ "\"" ++ String.join (attributes.map printAttribute) := by
      rw [List.map_cons, String.join_cons]
      rfl
    rw [hprint]
    exact .cons (by decide) (by decide) (h a List.mem_cons_self) hrest

/-- The names and keys of a line can be told from what stands around them. -/
def Line.Sound : Line → Prop
  | opening name attributes => IsName name ∧ ∀ a ∈ attributes, IsKey a.1
  | single name attributes => IsName name ∧ ∀ a ∈ attributes, IsKey a.1
  | closing name => IsName name

theorem Line.written_print {line : Line} (h : line.Sound) : line.Written line.print := by
  cases line with
  | opening name attributes => exact .opening h.1 (.print h.2)
  | single name attributes => exact .single h.1 (.print h.2)
  | closing name =>
    have hblank : Blank "" := by decide
    have hline := Line.Written.closing h hblank
    rw [String.append_empty] at hline
    exact hline

theorem written_print {lines : List Line} (h : ∀ line ∈ lines, line.Sound) :
    Written lines (print lines) :=
  between_iff.1 (.print fun line hline ↦ line.written_print (h line hline))

/-- As `Line.Sound`, where names may have hyphens. -/
def Line.Clear : Line → Prop
  | opening name attributes => IsTagName name ∧ ∀ a ∈ attributes, IsKey a.1
  | single name attributes => IsTagName name ∧ ∀ a ∈ attributes, IsKey a.1
  | closing name => IsTagName name

theorem Line.reads_print {line : Line} (h : line.Clear) : line.Reads line.print := by
  cases line with
  | opening name attributes => exact .opening h.1 (.print h.2)
  | single name attributes => exact .single h.1 (.print h.2)
  | closing name =>
    have hblank : Blank "" := by decide
    have hline := Line.Reads.closing h hblank
    rw [String.append_empty] at hline
    exact hline

/-- What is printed is read as one event for each line, however it arrives. -/
theorem print_arriving {lines : List Line} (h : ∀ line ∈ lines, line.Clear) (d : Delivery) :
    ∃ events, Document.arriving d (encode (print lines)) = ⟨events, none⟩ ∧
      List.Forall₂ Line.Gives lines events :=
  (Between.print fun line hline ↦ line.reads_print (h line hline)).arriving d

end LinkOrder.Markup
