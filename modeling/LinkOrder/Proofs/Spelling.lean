import LinkOrder.Proofs.AttributeValues
import LinkOrder.Proofs.Lockstep

namespace LinkOrder

/-- The unit as it is seen with marks of native units, or without. -/
def LinkUnit.seen (marks : Bool) (u : LinkUnit) : LinkUnit := { u with native := marks && u.native }

namespace UnitFile

open Text Markup

theorem forall₂_middle {α : Type} {R : α → α → Prop} {a a' : α} {l₁ l₂ : List α} (hrefl : ∀ x, R x x)
    (h : R a a') : List.Forall₂ R (l₁ ++ a :: l₂) (l₁ ++ a' :: l₂) :=
  List.rel_append (List.forall₂_same.2 fun x _ ↦ hrefl x) (.cons h (List.forall₂_same.2 fun x _ ↦ hrefl x))

def UnitHead.seen (marks : Bool) (h : UnitHead) : UnitHead := { h with native := marks && h.native }

def HeadDraft.seen (marks : Bool) (h : HeadDraft) : HeadDraft := { h with native := marks && h.native }

def Element.seen (marks : Bool) : Element → Element
  | .unit head => .unit (head.seen marks)
  | .ref kind id => .ref kind id
  | .imported path => .imported path

def Event.seen (marks : Bool) : Event → Event
  | .unitStart head => .unitStart (head.seen marks)
  | .imported path => .imported path
  | .ref kind id => .ref kind id
  | .unitEnd => .unitEnd
  | .eof => .eof

def Contents.seen (marks : Bool) (c : Contents) : Contents := { c with units := c.units.map (·.seen marks) }

theorem Contents.seen_true (c : Contents) : c.seen true = c := by
  have hid : LinkUnit.seen true = id := rfl
  simp [Contents.seen, hid]

section Contents

variable {marks : Bool}

def Collected.seen (marks : Bool) (c : Collected) : Collected :=
  ⟨c.contents.seen marks, c.current.map (·.seen marks)⟩

theorem addRef_seen (u : LinkUnit) (kind : RefKind) (id : String) :
    addRef (u.seen marks) kind id = (addRef u kind id).seen marks := by
  cases kind <;> rfl

theorem Collected.put_seen (c : Collected) (event : Event) :
    (c.seen marks).put (event.seen marks) = (c.put event).seen marks := by
  cases event with
  | imported path => rfl
  | unitStart head => rfl
  | ref kind id =>
    have hcurrent : (c.current.map (·.seen marks)).map (addRef · kind id) =
        (c.current.map (addRef · kind id)).map (·.seen marks) := by
      cases c.current with
      | none => rfl
      | some u => exact congrArg some (addRef_seen u kind id)
    exact congrArg (Collected.mk (c.contents.seen marks)) hcurrent
  | unitEnd =>
    have hunits : c.contents.units.map (·.seen marks) ++ (c.current.map (·.seen marks)).toList =
        (c.contents.units ++ c.current.toList).map (·.seen marks) := by
      rw [List.map_append]
      cases c.current <;> rfl
    exact congrArg (fun units ↦ Collected.mk ⟨units, c.contents.imports⟩ none) hunits
  | eof => rfl

theorem Contents.ofEvents_seen (events : List Event) :
    (ofEvents events).seen marks = ofEvents (events.map (Event.seen marks)) := by
  have hfold (c : Collected) : (events.map (Event.seen marks)).foldl Collected.put (c.seen marks) =
      (events.foldl Collected.put c).seen marks := by
    induction events generalizing c with
    | nil => rfl
    | cons event events ih =>
      rw [List.map_cons, List.foldl_cons, Collected.put_seen, ih]
      rfl
  exact congrArg Collected.contents (hfold {}).symm

end Contents

section Tag

variable {marks : Bool} {marked : Prop} {a a' : Attribute} {l l' : List Attribute} {t t' : Tag} {d d' : HeadDraft}

/-- Attributes of one key whose values say the same. One that marks a native unit is written the same if marks count. -/
structure SameValue (marked : Prop) (a a' : Attribute) : Prop where
  key : a'.key = a.key
  text : text a' = text a
  mark : marked → a.key = encode "native" → (a'.value = encode "true" ↔ a.value = encode "true")

theorem SameValue.refl (a : Attribute) : SameValue marked a a := ⟨rfl, rfl, fun _ _ ↦ Iff.rfl⟩

theorem SameValue.number (h : SameValue marked a a') (key : String) : number key a' = number key a := by
  rw [UnitFile.number, h.text, UnitFile.number]

theorem SameValue.put (h : SameValue (marks = true) a a') (hd : d'.seen marks = d.seen marks) :
    (d'.put a').map (HeadDraft.seen marks) = (d.put a).map (HeadDraft.seen marks) := by
  obtain ⟨hname, hmodified, hsize, hoptimized, hnative⟩ := HeadDraft.mk.inj hd
  have hreturn {α : Type} (x : Except Error α) {f f' : α → HeadDraft}
      (hf : ∀ v, (f' v).seen marks = (f v).seen marks) :
      Except.map (HeadDraft.seen marks) (do return f' (← x)) =
        Except.map (HeadDraft.seen marks) (do return f (← x)) := by
    cases x with
    | error e => rfl
    | ok v => exact congrArg Except.ok (hf v)
  unfold HeadDraft.put
  rw [h.key, h.text, h.number, h.number, h.number]
  split
  · exact hreturn _ fun v ↦ by simp only [HeadDraft.seen, hmodified, hsize, hoptimized, hnative]
  split
  · exact hreturn _ fun v ↦ by simp only [HeadDraft.seen, hname, hsize, hoptimized, hnative]
  split
  · exact hreturn _ fun v ↦ by simp only [HeadDraft.seen, hname, hmodified, hoptimized, hnative]
  split
  · exact hreturn _ fun v ↦ by simp only [HeadDraft.seen, hname, hmodified, hsize, hnative]
  split
  · next hkey =>
    have hmark : (marks && decide (a'.value = encode "true")) = (marks && decide (a.value = encode "true")) := by
      cases marks with
      | false => rfl
      | true => rw [decide_eq_decide.2 (h.mark rfl hkey)]
    simp only [Except.map, HeadDraft.seen, hname, hmodified, hsize, hoptimized, hmark]
  · exact congrArg Except.ok hd

theorem foldlM_put_seen (hl : List.Forall₂ (SameValue (marks = true)) l l') (hd : d'.seen marks = d.seen marks) :
    (l'.foldlM HeadDraft.put d').map (HeadDraft.seen marks) =
      (l.foldlM HeadDraft.put d).map (HeadDraft.seen marks) := by
  induction hl generalizing d d' with
  | nil => exact congrArg Except.ok hd
  | @cons a a' l l' ha _ ih =>
    rw [List.foldlM_cons, List.foldlM_cons]
    exact bind_map_eq (ha.put hd) fun _ _ hd₁ ↦ ih hd₁

theorem UnitHead.ofTag_seen (hl : List.Forall₂ (SameValue (marks = true)) t.attributeList t'.attributeList) :
    (ofTag t').map (UnitHead.seen marks) = (ofTag t).map (UnitHead.seen marks) := by
  have hfold : (t'.attributeList.foldlM HeadDraft.put {}).map (HeadDraft.seen marks) =
      (t.attributeList.foldlM HeadDraft.put {}).map (HeadDraft.seen marks) := foldlM_put_seen hl rfl
  refine bind_map_eq hfold fun d d' hd ↦ ?_
  obtain ⟨hname, hmodified, hsize, hoptimized, hnative⟩ := HeadDraft.mk.inj hd
  rw [hname]
  cases d.name with
  | none => rfl
  | some name => exact congrArg Except.ok (by simp only [UnitHead.seen, hmodified, hsize, hoptimized, hnative])

theorem find?_text (hl : List.Forall₂ (SameValue marked) l l') (key : Bytes) :
    (l'.find? (·.key == key)).map text = (l.find? (·.key == key)).map text := by
  induction hl with
  | nil => rfl
  | @cons a a' l l' ha _ ih =>
    rw [List.find?_cons, List.find?_cons, ha.key]
    split
    · exact congrArg some ha.text
    · exact ih

theorem ofTag?_seen (hname : t'.name = t.name)
    (hl : List.Forall₂ (SameValue (marks = true ∧ t.name = encode "unit")) t.attributeList t'.attributeList) :
    (Element.ofTag? t').map (Except.map (Element.seen marks)) =
      (Element.ofTag? t).map (Except.map (Element.seen marks)) := by
  have hget (key : String) : (t'.get? key).map text = (t.get? key).map text := find?_text hl _
  unfold Element.ofTag?
  rw [hname]
  split
  · next hunit =>
    have hmarks : List.Forall₂ (SameValue (marks = true)) t.attributeList t'.attributeList :=
      hl.imp fun a a' h ↦ ⟨h.key, h.text, fun hmarks ↦ h.mark ⟨hmarks, hunit⟩⟩
    refine congrArg some (bind_map_eq (UnitHead.ofTag_seen hmarks) fun head head' hhead ↦ ?_)
    exact congrArg (fun head ↦ Except.ok (Element.unit head)) hhead
  · split
    · rcases none_or_some_of_map_eq (hget "path") with ⟨h, h'⟩ | ⟨a, a', h, h', htext⟩
      · rw [h, h']
      · simp only [h, h', htext]
    · cases RefKind.ofName? t.name with
      | none => rfl
      | some kind =>
        rcases none_or_some_of_map_eq (hget "id") with ⟨h, h'⟩ | ⟨a, a', h, h', htext⟩
        · simp only [h, h', Option.map_some]
        · simp only [h, h', htext, Option.map_some]

end Tag

section Reader

variable {marks : Bool} {fault : Option Markup.Error} {place : Place} {skip : Option Skip} {isEmpty : Bool}
  {l l' : List Markup.Event} {e e' : Markup.Event} {told told' : Except Error Element}

def SameElement (marks : Bool) (t t' : Tag) : Prop :=
  t'.name = t.name ∧
    (Element.ofTag? t').map (Except.map (Element.seen marks)) =
      (Element.ofTag? t).map (Except.map (Element.seen marks))

/-- Events that differ in how their attributes are written, at most. -/
inductive Similar (marks : Bool) : Markup.Event → Markup.Event → Prop
  | opened {t t' : Tag} (h : SameElement marks t t') : Similar marks (.opened t) (.opened t')
  | empty {t t' : Tag} (h : SameElement marks t t') : Similar marks (.empty t) (.empty t')
  | closed (name : Bytes) : Similar marks (.closed name) (.closed name)
  | passed : Similar marks .passed .passed

theorem Similar.refl (e : Markup.Event) : Similar marks e e := by
  cases e with
  | opened t => exact .opened ⟨rfl, rfl⟩
  | empty t => exact .empty ⟨rfl, rfl⟩
  | closed name => exact .closed name
  | passed => exact .passed

theorem SameElement.event {t t' : Tag} (h : SameElement marks t t') (isEmpty : Bool) :
    Similar marks (t.event isEmpty) (t'.event isEmpty) := by
  cases isEmpty with
  | false => exact .opened h
  | true => exact .empty h

theorem Similar.past (h : Similar marks e e') (s : Skip) : s.past e' = s.past e := by
  cases h with
  | opened h => rw [Skip.past, Skip.past, h.1]
  | empty h => rfl
  | closed name => rfl
  | passed => rfl

/-- Readers at the same place of documents with similar events. -/
structure Abreast (marks : Bool) (r r' : Reader) : Prop where
  place : r'.place = r.place
  fault : r'.document.fault = r.document.fault
  events : List.Forall₂ (Similar marks) r.document.events r'.document.events

def SimilarCall (marks : Bool) (x x' : Except Error Event × Reader) : Prop :=
  x'.1.map (Event.seen marks) = x.1.map (Event.seen marks) ∧ Abreast marks x.2 x'.2

theorem eventOf_seen (place : Place) {element element' : Element} (h : element'.seen marks = element.seen marks) :
    (eventOf place element').map (Event.seen marks) = (eventOf place element).map (Event.seen marks) := by
  have hseen (element : Element) :
      (eventOf place element).map (Event.seen marks) = eventOf place (element.seen marks) := by
    cases element <;> simp only [eventOf, Element.seen] <;> split <;> rfl
  rw [hseen, hseen, h]

theorem SimilarCall.tell (hl : List.Forall₂ (Similar marks) l l')
    (h : told'.map (Element.seen marks) = told.map (Element.seen marks)) :
    SimilarCall marks (tell fault place isEmpty l told) (tell fault place isEmpty l' told') := by
  have hafter (event : Event) : place.after isEmpty (event.seen marks) = place.after isEmpty event := by
    cases event <;> rfl
  have hevent := bind_map_eq h fun _ _ ↦ eventOf_seen place
  unfold UnitFile.tell
  rcases error_or_ok_of_map_eq hevent with ⟨e, heq, heq'⟩ | ⟨event, event', heq, heq', hseen⟩
  · simp only [heq, heq']
    exact ⟨rfl, rfl, rfl, hl⟩
  · simp only [heq, heq']
    refine ⟨congrArg Except.ok hseen, ?_, rfl, hl⟩
    rw [← hafter event', hseen, hafter]

theorem readOn_similar (hl : List.Forall₂ (Similar marks) l l') :
    SimilarCall marks (readOn fault place skip l) (readOn fault place skip l') := by
  induction hl generalizing place skip with
  | nil => exact ⟨rfl, rfl, rfl, .nil⟩
  | @cons e e' l l' he hl ih =>
    cases skip with
    | some s =>
      simp only [readOn, he.past]
      exact ih
    | none =>
      by_cases hplace : place = .prolog
      · subst hplace
        simp only [readOn, if_pos]
        cases he with
        | closed name => exact ih
        | passed => exact ih
        | opened h =>
          simp only [h.1]
          split
          · exact ih
          · exact ⟨rfl, rfl, rfl, hl⟩
        | empty h =>
          simp only [h.1]
          split
          · exact ih
          · exact ⟨rfl, rfl, rfl, hl⟩
      · simp only [readOn, if_neg hplace]
        cases he with
        | closed name =>
          dsimp only
          split
          · exact ⟨rfl, rfl, rfl, hl⟩
          · exact ih
        | passed => exact ih
        | opened h =>
          rcases none_or_some_of_map_eq h.2 with ⟨heq, heq'⟩ | ⟨told, told', heq, heq', htold⟩
          · simp only [heq, heq', h.1]
            exact ih
          · simp only [heq, heq']
            exact .tell hl htold
        | empty h =>
          rcases none_or_some_of_map_eq h.2 with ⟨heq, heq'⟩ | ⟨told, told', heq, heq', htold⟩
          · simp only [heq, heq']
            exact ih
          · simp only [heq, heq']
            exact .tell hl htold

theorem inStep_abreast : InStep (Event.seen marks) (Abreast marks) := by
  have hcall (r r' : Reader) (hr : Abreast marks r r') : SimilarCall marks r.next r'.next := by
    unfold Reader.next
    rw [hr.place, hr.fault]
    split
    · exact ⟨rfl, rfl, hr.fault, hr.events⟩
    · exact readOn_similar hr.events
  exact {
    view_eq_eof := fun event ↦ by cases event <;> simp [Event.seen]
    told := fun r r' hr ↦ (hcall r r' hr).1
    next := fun r r' _ hr _ ↦ (hcall r r' hr).2 }

end Reader

/-- When the value of an attribute is written in another way that stands for the same bytes, what is read is the same
but for the marks of native units. The marks are the same too, unless that value is one of them and exactly one of the
two ways to write it is `true` itself. The file arrives whole here; in blocks, whose borders the value moves, a document
type may come to end elsewhere. -/
theorem spelling_of_values_is_immaterial {name key raw raw' value file file' : Bytes}
    (h : Respelled name key raw raw' file file') (hraw : unescape raw = .ok value)
    (hraw' : unescape raw' = .ok value) :
    (read (.ofBytes file')).map (Contents.seen false) = (read (.ofBytes file)).map (Contents.seen false) ∧
    ((name = encode "unit" → key = encode "native" → (raw' = encode "true" ↔ raw = encode "true")) →
      read (.ofBytes file') = read (.ofBytes file)) := by
  obtain ⟨earlier, later, fault, isEmpty, t, t', l₁, l₂, hfile, hfile', hname, hname', hl, hl'⟩ := h.ofBytes_eq
  have hread (marks : Bool) (hmark : marks = true → name = encode "unit" → key = encode "native" →
      (raw' = encode "true" ↔ raw = encode "true")) :
      (read (.ofBytes file')).map (Contents.seen marks) = (read (.ofBytes file)).map (Contents.seen marks) := by
    have hvalue : SameValue (marks = true ∧ t.name = encode "unit") ⟨key, raw⟩ ⟨key, raw'⟩ :=
      ⟨rfl, by simp only [text, hraw, hraw'], fun hmarks ↦ hmark hmarks.1 (hname ▸ hmarks.2)⟩
    have hvalues : List.Forall₂ (SameValue (marks = true ∧ t.name = encode "unit")) t.attributeList
        t'.attributeList := by
      rw [hl, hl']
      exact forall₂_middle SameValue.refl hvalue
    have helement : SameElement marks t t' :=
      ⟨hname'.trans hname.symm, ofTag?_seen (hname'.trans hname.symm) hvalues⟩
    have habreast : Abreast marks ⟨.ofBytes file, .prolog⟩ ⟨.ofBytes file', .prolog⟩ := by
      rw [hfile, hfile']
      exact ⟨rfl, rfl, forall₂_middle Similar.refl (helement.event isEmpty)⟩
    exact inStep_abreast.read_map habreast _ Contents.ofEvents_seen
  refine ⟨hread false (by simp), fun hmark ↦ ?_⟩
  have hseen := hread true fun _ ↦ hmark
  have hid : Contents.seen true = id := funext Contents.seen_true
  rwa [hid, Except.map_id] at hseen

namespace Quoting

theorem markups_root : Markups (encode "<units>" ++ []) [.opened ⟨encode "units", []⟩] :=
  .next (.of_read [0] (by simp) rfl) (.text (by simp))

theorem skips_quoted (s s' s'' : String) (h : ∀ a ∈ ['>', '\x27', '\x22'], a ∉ s.toList)
    (h' : byte '\x22' ∉ encode s') (h'' : ∀ a ∈ ['>', '\x27', '\x22'], a ∉ s''.toList) :
    Skips (encode s ++ (byte '\x22' :: (encode s' ++ [byte '\x22']) ++ encode s'')) :=
  (Skips.of_text h).append ((Skips.quoted h').append (.of_text h''))

def named (raw : String) : Bytes :=
  encode "<units>" ++ [] ++ byte '<' :: (encode "unit" ++ (encode " size=\"1\"" ++ encode " name=" ++ [byte '\x27'] ++
    (encode raw ++ (byte '\x27' :: encode " native=\"true\"" ++ encode "/></units>"))))

theorem greater_sign_is_read_alike :
    read (.ofBytes (named "a>b")) = .ok ⟨[{ name := "a>b", native := true, size := some 1 }], []⟩ := by
  have hvalue : ValueOf (encode "name") (encode "a&#x3e;b")
      (encode " size=\"1\"" ++ encode " name=" ++ [byte '\x27']) (byte '\x27' :: encode " native=\"true\"") := by
    rw [List.append_assoc]
    exact .later (a := some ⟨encode "size", encode "1"⟩) rfl (.here rfl)
  have hread : readMarkup .whole (encode "unit" ++ (encode " size=\"1\"" ++ encode " name=" ++ [byte '\x27'] ++
      (encode "a&#x3e;b" ++ (byte '\x27' :: encode " native=\"true\"" ++ encode "/></units>")))) =
      .event (Tag.event ⟨encode "unit", encode " size=\"1\"" ++ encode " name=" ++ [byte '\x27'] ++
        (encode "a&#x3e;b" ++ byte '\x27' :: encode " native=\"true\"")⟩ true) (encode "</units>") := rfl
  have hrespelled : Respelled (encode "unit") (encode "name") (encode "a&#x3e;b") (encode "a>b") (named "a&#x3e;b")
      (named "a>b") :=
    .of_paired markups_root (.inl rfl) (skips_quoted "unit size=" "1" " name=" (by simp) (by decide) (by simp))
      hvalue (by decide) hread
  have hraw : unescape (encode "a&#x3e;b") = .ok (encode "a>b") := eq_ok_of_toOption (by decide +kernel)
  have hraw' : unescape (encode "a>b") = .ok (encode "a>b") := eq_ok_of_toOption (by decide +kernel)
  rw [(spelling_of_values_is_immaterial hrespelled hraw hraw').2 fun _ h ↦ absurd h (by decide)]
  exact eq_ok_of_toOption (by decide +kernel)

def marked (raw : String) : Bytes :=
  encode "<units>" ++ [] ++ byte '<' :: (encode "unit" ++ (encode " name=\"a\"" ++ encode " native=" ++ [byte '\x22'] ++
    (encode raw ++ ([byte '\x22'] ++ encode "/></units>"))))

theorem spelled_mark_is_lost :
    Respelled (encode "unit") (encode "native") (encode "true") (encode "&#116;rue") (marked "true")
      (marked "&#116;rue") ∧
    unescape (encode "true") = .ok (encode "true") ∧ unescape (encode "&#116;rue") = .ok (encode "true") ∧
    read (.ofBytes (marked "true")) = .ok ⟨[{ name := "a", native := true }], []⟩ ∧
    read (.ofBytes (marked "&#116;rue")) = .ok ⟨[{ name := "a", native := false }], []⟩ := by
  have hvalue : ValueOf (encode "native") (encode "true")
      (encode " name=\"a\"" ++ encode " native=" ++ [byte '\x22']) [byte '\x22'] := by
    rw [List.append_assoc]
    exact .later (a := some ⟨encode "name", encode "a"⟩) rfl (.here rfl)
  have hread : readMarkup .whole (encode "unit" ++ (encode " name=\"a\"" ++ encode " native=" ++ [byte '\x22'] ++
      (encode "true" ++ ([byte '\x22'] ++ encode "/></units>")))) =
      .event (Tag.event ⟨encode "unit", encode " name=\"a\"" ++ encode " native=" ++ [byte '\x22'] ++
        (encode "true" ++ [byte '\x22'])⟩ true) (encode "</units>") := rfl
  refine ⟨?_, eq_ok_of_toOption (by decide +kernel), eq_ok_of_toOption (by decide +kernel),
    eq_ok_of_toOption (by decide +kernel), eq_ok_of_toOption (by decide +kernel)⟩
  exact .of_paired markups_root (.inr rfl)
    (skips_quoted "unit name=" "a" " native=" (by simp) (by decide) (by simp)) hvalue (by decide) hread

end Quoting

end UnitFile

end LinkOrder
