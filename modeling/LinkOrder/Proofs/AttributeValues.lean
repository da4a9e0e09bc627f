import LinkOrder.Markup.Attribute
import LinkOrder.Proofs.Markups

namespace LinkOrder.Markup

open Text

variable {l t rest rest' key before after raw raw' : Bytes} {b e q : UInt8} {p : UInt8 → Bool}
  {a : Option Attribute}

theorem split_of_dropWhile_eq_cons (h : l.dropWhile p = b :: t) :
    l = l.takeWhile p ++ b :: t ∧ (∀ x ∈ l.takeWhile p, p x = true) ∧ p b = false := by
  refine ⟨?_, fun x hx ↦ List.mem_takeWhile_imp hx, ?_⟩
  · rw [← h, List.takeWhile_append_dropWhile]
  · have hhead := List.head?_dropWhile_not p l
    rwa [h] at hhead

theorem cut_where (hl : ∀ x ∈ l, p x = true) (hrest : rest.head? = (t.dropWhile p).head?) :
    (l ++ rest).takeWhile p = l ∧ (l ++ rest).dropWhile p = rest := by
  cases rest with
  | nil =>
    rw [List.append_nil]
    exact ⟨List.takeWhile_eq_self_iff.2 hl, List.dropWhile_eq_nil_iff.2 hl⟩
  | cons b rest =>
    have hb := List.head?_dropWhile_not p t
    rw [← hrest] at hb
    exact ⟨takeWhile_stop hl hb, dropWhile_stop hl hb⟩

theorem readAttribute_stem (hb : skipSpace l = b :: t) (he : skipSpace (t.dropWhile isKeyByte) = e :: rest) :
    ∃ stem, l = stem ++ e :: rest ∧ ∀ rest', readAttribute (stem ++ e :: rest') =
      if e = byte '=' then readValue (b :: t.takeWhile isKeyByte) (skipSpace rest') else some (none, e :: rest') := by
  obtain ⟨hl, hgap, hspace⟩ := split_of_dropWhile_eq_cons hb
  obtain ⟨hd, hgap', hspace'⟩ := split_of_dropWhile_eq_cons he
  have ht : t.takeWhile isKeyByte ++ t.dropWhile isKeyByte = t := List.takeWhile_append_dropWhile
  have hkey : ∀ x ∈ t.takeWhile isKeyByte, isKeyByte x = true := fun x hx ↦ List.mem_takeWhile_imp hx
  generalize l.takeWhile isSpace = gap at hl hgap
  generalize (t.dropWhile isKeyByte).takeWhile isSpace = gap' at hd hgap'
  rw [hd] at ht
  refine ⟨gap ++ b :: (t.takeWhile isKeyByte ++ gap'), ?_, fun rest' ↦ ?_⟩
  · calc
      l = gap ++ b :: (t.takeWhile isKeyByte ++ (gap' ++ e :: rest)) := by rw [ht, hl]
      _ = gap ++ b :: (t.takeWhile isKeyByte ++ gap') ++ e :: rest := by simp
  · -- the key ends where it did: before the white space, or before the byte after it if there is none
    have hhead : (gap' ++ e :: rest').head? = (t.dropWhile isKeyByte).head? := by
      rw [hd]
      cases gap' <;> rfl
    have hb' : skipSpace (gap ++ b :: (t.takeWhile isKeyByte ++ (gap' ++ e :: rest'))) =
        b :: (t.takeWhile isKeyByte ++ (gap' ++ e :: rest')) := dropWhile_stop hgap hspace
    have he' : skipSpace (gap' ++ e :: rest') = e :: rest' := dropWhile_stop hgap' hspace'
    rw [List.append_assoc, List.cons_append, List.append_assoc, readAttribute, hb']
    simp only [cut_where hkey hhead, he']

theorem readValue_cases (h : readValue key (q :: t) = some (a, rest)) :
    (a = none ∧ ∃ dropped, t = dropped ++ rest ∧
      ∀ rest', rest'.head? = rest.head? → readValue key (q :: (dropped ++ rest')) = some (none, rest')) ∨
    ∃ value, a = some ⟨key, value⟩ ∧ t = value ++ q :: rest ∧ q ∉ value ∧
      ∀ value' rest', q ∉ value' →
        readValue key (q :: (value' ++ q :: rest')) = some (some ⟨key, value'⟩, rest') := by
  rw [readValue] at h
  by_cases hq : (q = byte '\x27' || q = byte '\x22') = true
  · rw [if_pos hq] at h
    split at h
    · cases h
    · next c r hd =>
      obtain ⟨rfl, rfl⟩ := Prod.mk.inj (Option.some.inj h)
      obtain ⟨ht, hvalue, hc⟩ := split_of_dropWhile_eq_cons hd
      obtain rfl : c = q := by simpa using hc
      refine .inr ⟨_, rfl, ht, fun hmem ↦ by simpa using hvalue c hmem, fun value' rest' hvalue' ↦ ?_⟩
      have hne : ∀ x ∈ value', (x != c) = true := fun x hx ↦ bne_iff_ne.2 fun heq ↦ hvalue' (heq ▸ hx)
      rw [readValue, if_pos hq, dropWhile_stop hne (by simp), takeWhile_stop hne (by simp)]
  · rw [if_neg hq] at h
    obtain ⟨rfl, rfl⟩ := Prod.mk.inj (Option.some.inj h)
    refine .inl ⟨rfl, t.takeWhile (!isSpace ·), List.takeWhile_append_dropWhile.symm, fun rest' hhead ↦ ?_⟩
    have hunquoted : ∀ x ∈ t.takeWhile (!isSpace ·), (!isSpace x) = true := by
      intro x hx
      exact List.mem_takeWhile_imp (p := (!isSpace ·)) hx
    rw [readValue, if_neg hq, (cut_where hunquoted hhead).2]

/-- What is read of an attribute's text does not depend on what follows, but for the byte at which something
malformed ends. Between its quotes any other value would be read as well. -/
theorem readAttribute_cases (h : readAttribute l = some (a, rest)) :
    (a = none ∧ ∃ dropped, l = dropped ++ rest ∧
      ∀ rest', rest'.head? = rest.head? → readAttribute (dropped ++ rest') = some (none, rest')) ∨
    ∃ key value stem q, a = some ⟨key, value⟩ ∧ l = stem ++ q :: (value ++ q :: rest) ∧ q ∉ value ∧
      ∀ value' rest', q ∉ value' →
        readAttribute (stem ++ q :: (value' ++ q :: rest')) = some (some ⟨key, value'⟩, rest') := by
  rw [readAttribute] at h
  split at h
  · cases h
  · next b t hb =>
    split at h
    · cases h
    · next e r he =>
      obtain ⟨stem, rfl, hstem⟩ := readAttribute_stem hb he
      generalize b :: t.takeWhile isKeyByte = key at h hstem
      by_cases heq : e = byte '='
      · rw [if_pos heq] at h
        cases hr : skipSpace r with
        | nil =>
          rw [hr] at h
          cases h
        | cons q t =>
          obtain ⟨hsplit, hgap, hq⟩ := split_of_dropWhile_eq_cons hr
          generalize r.takeWhile isSpace = gap at hsplit hgap
          have hvalue (t : Bytes) :
              readAttribute (stem ++ e :: (gap ++ q :: t)) = readValue key (q :: t) := by
            rw [hstem, if_pos heq, skipSpace, dropWhile_stop hgap hq]
          rw [hr] at h
          subst hsplit
          rcases readValue_cases h with ⟨rfl, dropped, rfl, hdropped⟩ | ⟨value, rfl, rfl, hmem, hother⟩
          · refine .inl ⟨rfl, stem ++ e :: (gap ++ q :: dropped), by simp, fun rest' hhead ↦ ?_⟩
            have hread := (hvalue (dropped ++ rest')).trans (hdropped rest' hhead)
            simpa using hread
          · refine .inr ⟨key, value, stem ++ e :: gap, q, rfl, by simp, hmem, fun value' rest' hvalue' ↦ ?_⟩
            have hread := (hvalue (value' ++ q :: rest')).trans (hother value' rest' hvalue')
            simpa using hread
      · rw [if_neg heq] at h
        obtain ⟨rfl, rfl⟩ := Prod.mk.inj (Option.some.inj h)
        refine .inl ⟨rfl, stem, rfl, fun rest' hhead ↦ ?_⟩
        obtain ⟨r', rfl⟩ := List.head?_eq_some_iff.1 hhead
        rw [hstem, if_neg heq]

theorem readAttribute_append (h : readAttribute (l ++ rest) = some (a, rest)) (hhead : rest'.head? = rest.head?) :
    readAttribute (l ++ rest') = some (a, rest') := by
  rcases readAttribute_cases h with ⟨rfl, dropped, hl, hother⟩ | ⟨key, value, stem, q, rfl, hl, hmem, hother⟩
  · obtain rfl := List.append_cancel_right hl
    exact hother rest' hhead
  · have hl' : l ++ rest = stem ++ q :: (value ++ [q]) ++ rest := by simpa using hl
    obtain rfl := List.append_cancel_right hl'
    simpa using hother value rest' hmem

/-- In the attributes of a tag, `raw` is the value of `key` where it stands between `before` and `after`. -/
inductive ValueOf (key raw : Bytes) : Bytes → Bytes → Prop
  | here {before rest : Bytes} {q : UInt8}
      (h : readAttribute (before ++ (raw ++ q :: rest)) = some (some ⟨key, raw⟩, rest)) :
      ValueOf key raw before (q :: rest)
  | later {passed before after : Bytes} {a : Option Attribute}
      (h : readAttribute (passed ++ (before ++ (raw ++ after))) = some (a, before ++ (raw ++ after)))
      (hlater : ValueOf key raw before after) : ValueOf key raw (passed ++ before) after

theorem ValueOf.attributesOf_eq (h : ValueOf key raw before after) :
    before ≠ [] ∧ ∃ q rest l₁ l₂, after = q :: rest ∧ q ∉ raw ∧
      ∀ raw', q ∉ raw' → attributesOf (before ++ (raw' ++ after)) = l₁ ++ ⟨key, raw'⟩ :: l₂ := by
  induction h with
  | @here before rest q h =>
    rcases readAttribute_cases h with ⟨hnone, -⟩ | ⟨key', value, stem, c, ha, hsplit, hmem, hother⟩
    · cases hnone
    · cases ha
      have hsplit' : before ++ raw ++ [q] ++ rest = stem ++ [c] ++ raw ++ [c] ++ rest := by simpa using hsplit
      obtain ⟨hbefore, hq⟩ := List.append_inj' (List.append_cancel_right hsplit') rfl
      obtain rfl := List.append_cancel_right hbefore
      cases hq
      refine ⟨by simp, q, rest, [], attributesOf rest, rfl, hmem, fun raw' hraw' ↦ ?_⟩
      simpa using attributesOf_of_some (hother raw' rest hraw')
  | @later passed before after a h _ ih =>
    obtain ⟨hne, q, rest, l₁, l₂, rfl, hmem, hall⟩ := ih
    refine ⟨by simp [hne], q, rest, a.toList ++ l₁, l₂, rfl, hmem, fun raw' hraw' ↦ ?_⟩
    have hread' : readAttribute (passed ++ (before ++ (raw' ++ q :: rest))) =
        some (a, before ++ (raw' ++ q :: rest)) := by
      obtain ⟨b, t, rfl⟩ := List.exists_cons_of_ne_nil hne
      exact readAttribute_append h rfl
    rw [List.append_assoc, attributesOf_of_some hread', hall raw' hraw', List.append_assoc]

def Tag.event (t : Tag) (isEmpty : Bool) : Event :=
  if isEmpty then .empty t else .opened t

/-- Two texts that differ in how the value of one attribute is written: `raw` in the first is `raw'` in the second. The
tag ends at the same place in both. That is not always so, since it ends at the first `>` that no quote is open at, and
what comes before the value may have left one open. -/
inductive Respelled (name key raw raw' : Bytes) : Bytes → Bytes → Prop
  | intro {front before after tail rest : Bytes} {events : List Event} {isEmpty : Bool}
      (hfront : Markups front events) (hvalue : ValueOf key raw before after)
      (hquote : ∀ q ∈ after.head?, q ∉ raw')
      (hread : readMarkup .whole (name ++ (before ++ (raw ++ (after ++ tail)))) =
        .event (Tag.event ⟨name, before ++ (raw ++ after)⟩ isEmpty) rest)
      (hread' : readMarkup .whole (name ++ (before ++ (raw' ++ (after ++ tail)))) =
        .event (Tag.event ⟨name, before ++ (raw' ++ after)⟩ isEmpty) rest) :
      Respelled name key raw raw' (front ++ byte '<' :: (name ++ (before ++ (raw ++ (after ++ tail)))))
        (front ++ byte '<' :: (name ++ (before ++ (raw' ++ (after ++ tail)))))

theorem Respelled.ofBytes_eq {name text text' : Bytes} (h : Respelled name key raw raw' text text') :
    ∃ (earlier later : List Event) (fault : Option Error) (isEmpty : Bool) (t t' : Tag) (l₁ l₂ : List Attribute),
      Document.ofBytes text = ⟨earlier ++ t.event isEmpty :: later, fault⟩ ∧
      Document.ofBytes text' = ⟨earlier ++ t'.event isEmpty :: later, fault⟩ ∧
      t.name = name ∧ t'.name = name ∧
      t.attributeList = l₁ ++ ⟨key, raw⟩ :: l₂ ∧ t'.attributeList = l₁ ++ ⟨key, raw'⟩ :: l₂ := by
  cases h with
  | @intro front before after tail rest events isEmpty hfront hvalue hquote hread hread' =>
    obtain ⟨-, q, more, l₁, l₂, rfl, hmem, hattributes⟩ := hvalue.attributesOf_eq
    have hdocument {m : Bytes} {t : Tag} (h : readMarkup .whole m = .event (t.event isEmpty) rest) :
        Document.ofBytes (front ++ byte '<' :: m) =
          ⟨events ++ t.event isEmpty :: (Document.ofBytes rest).events, (Document.ofBytes rest).fault⟩ := by
      have hmarkup : read .whole (byte '<' :: m) = .event (t.event isEmpty) rest :=
        (read_markup (l := []) (by simp) m).trans h
      rw [hfront.ofBytes_append, Document.ofBytes, Document.arriving_of_event hmarkup]
      rfl
    exact ⟨events, _, _, isEmpty, _, _, l₁, l₂, hdocument hread, hdocument hread', rfl, rfl, hattributes raw hmem,
      hattributes raw' (hquote q rfl)⟩

section Paired

variable {name content ending tail : Bytes} {isEmpty : Bool}

theorem readMarkup_of_tag {tag : Tag} (h : readMarkup .whole (b :: l) = .event (tag.event isEmpty) rest) (m : Bytes) :
    readMarkup .whole (b :: m) = readElement (b :: m) := by
  have hpassed : tag.event isEmpty ≠ .passed := by cases isEmpty <;> simp [Tag.event]
  have hclosed (name : Bytes) : tag.event isEmpty ≠ .closed name := by cases isEmpty <;> simp [Tag.event]
  rw [readMarkup] at h ⊢
  by_cases hbang : b = byte '!'
  · rw [if_pos hbang] at h
    unfold readBang at h
    split at h
    · cases h
    · split at h
      · cases h
      · split at h
        · cases h
        · split at h
          · exact absurd (Read.event.inj h).1.symm hpassed
          · cases h
  by_cases hclosing : b = byte '/'
  · rw [if_neg hbang, if_pos hclosing] at h
    exact absurd (Read.event.inj h).1.symm (hclosed _)
  by_cases hinstruction : b = byte '?'
  · rw [if_neg hbang, if_neg hclosing, if_pos hinstruction] at h
    simp only [readInstruction] at h
    split at h
    · exact absurd (Read.event.inj h).1.symm hpassed
    · cases h
  · rw [if_neg hbang, if_neg hclosing, if_neg hinstruction]

theorem ofContent_respelled (hne : before ≠ [])
    (h : Tag.ofContent (name ++ (before ++ (raw ++ ending))) = ⟨name, before ++ (raw ++ after)⟩) :
    Tag.ofContent (name ++ (before ++ (raw' ++ ending))) = ⟨name, before ++ (raw' ++ after)⟩ := by
  obtain ⟨b, t, rfl⟩ := List.exists_cons_of_ne_nil hne
  obtain ⟨hname, hattributes⟩ := Tag.mk.inj h
  have hsplit := List.takeWhile_append_dropWhile (p := (!isSpace ·)) (l := name ++ (b :: t ++ (raw ++ ending)))
  rw [hname, hattributes] at hsplit
  obtain rfl : after = ending := by simpa using hsplit
  have hplain : ∀ x ∈ name, (!isSpace x) = true := by
    intro x hx
    rw [← hname] at hx
    exact List.mem_takeWhile_imp (p := (!isSpace ·)) hx
  have hhead : (b :: t ++ (raw' ++ after)).head? =
      ((name ++ (b :: t ++ (raw ++ after))).dropWhile (!isSpace ·)).head? := by
    rw [hattributes]
    rfl
  obtain ⟨hname', hattributes'⟩ := cut_where hplain hhead
  rw [Tag.ofContent, hname', hattributes']

theorem readElement_quoted {m v : Bytes} (hq : q = byte '\x27' ∨ q = byte '\x22') (hl : Skips l) (hv : q ∉ v) :
    readElement (l ++ q :: (v ++ q :: m)) =
      if (q :: (cutUnquoted none m).1).getLast? == some (byte '/') then
        .event (.empty (.ofContent (l ++ q :: (v ++ (q :: (cutUnquoted none m).1).dropLast)))) (cutUnquoted none m).2
      else .event (.opened (.ofContent (l ++ q :: (v ++ q :: (cutUnquoted none m).1)))) (cutUnquoted none m).2 := by
  have hgt : q ≠ byte '>' := by rcases hq with rfl | rfl <;> decide
  have hopens : cutUnquoted none (q :: (v ++ q :: m)) =
      (q :: (v ++ q :: (cutUnquoted none m).1), (cutUnquoted none m).2) := by
    simp [cutUnquoted, hgt, hq, Skips.cutUnquoted_some hv]
  have hcut : cutUnquoted none (l ++ q :: (v ++ q :: m)) =
      (l ++ q :: v ++ q :: (cutUnquoted none m).1, (cutUnquoted none m).2) := by
    rw [hl, hopens, List.append_assoc, List.cons_append]
  simp only [readElement, hcut]
  rw [List.getLast?_append_of_ne_nil _ (List.cons_ne_nil _ _), List.dropLast_append_of_ne_nil (List.cons_ne_nil _ _)]
  simp only [List.append_assoc, List.cons_append]

theorem Respelled.of_paired {front : Bytes} {events : List Event} (hfront : Markups front events)
    (hq : q = byte '\x27' ∨ q = byte '\x22') (hpaired : Skips (name ++ before))
    (hvalue : ValueOf key raw (before ++ [q]) (q :: after)) (hraw' : q ∉ raw')
    (hread : readMarkup .whole (name ++ (before ++ [q] ++ (raw ++ (q :: after ++ tail)))) =
      .event (Tag.event ⟨name, before ++ [q] ++ (raw ++ q :: after)⟩ isEmpty) rest) :
    Respelled name key raw raw' (front ++ byte '<' :: (name ++ (before ++ [q] ++ (raw ++ (q :: after ++ tail)))))
      (front ++ byte '<' :: (name ++ (before ++ [q] ++ (raw' ++ (q :: after ++ tail))))) := by
  have hraw : q ∉ raw := by
    obtain ⟨-, q', rest, -, -, heq, hmem, -⟩ := hvalue.attributesOf_eq
    cases heq
    exact hmem
  have hne : before ++ [q] ≠ [] := by simp
  obtain ⟨b, t, hstart⟩ := List.exists_cons_of_ne_nil (List.append_ne_nil_of_right_ne_nil name hne)
  have hmarkup {v : Bytes} (hv : q ∉ v) : readMarkup .whole (name ++ (before ++ [q] ++ (v ++ (q :: after ++ tail)))) =
      readElement (name ++ before ++ q :: (v ++ q :: (after ++ tail))) := by
    rw [← List.append_assoc, hstart] at hread ⊢
    rw [List.cons_append] at hread ⊢
    rw [readMarkup_of_tag hread, ← List.cons_append, ← hstart]
    simp
  refine .intro hfront hvalue (by simpa using hraw') hread ?_
  have hassoc (v ending : Bytes) : name ++ before ++ q :: (v ++ ending) = name ++ (before ++ [q] ++ (v ++ ending)) := by
    simp
  rw [hmarkup hraw, readElement_quoted hq hpaired hraw, hassoc, hassoc] at hread
  rw [hmarkup hraw', readElement_quoted hq hpaired hraw', hassoc, hassoc]
  split at hread
  · next hslash =>
    obtain ⟨htag, rfl⟩ := Read.event.inj hread
    cases isEmpty with
    | false => cases htag
    | true => rw [if_pos hslash, ofContent_respelled hne (Event.empty.inj htag), Tag.event, if_pos rfl]
  · next hslash =>
    obtain ⟨htag, rfl⟩ := Read.event.inj hread
    cases isEmpty with
    | false => rw [if_neg hslash, ofContent_respelled hne (Event.opened.inj htag), Tag.event, if_neg (by simp)]
    | true => cases htag

end Paired

end LinkOrder.Markup
