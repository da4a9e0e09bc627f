import LinkOrder.Proofs.Lockstep
import LinkOrder.Proofs.Markups

namespace LinkOrder.Markup

open Text

def Event.tag? : Event → Option Tag
  | .opened t | .empty t => some t
  | .closed _ | .passed => none

/-- Events in which every tag that opens is closed by one of its name, and what is between them is nested too. -/
inductive Nested : List Event → Prop
  | nil : Nested []
  | passed {l : List Event} (h : Nested l) : Nested (.passed :: l)
  | empty {l : List Event} (t : Tag) (h : Nested l) : Nested (.empty t :: l)
  | element {inner l : List Event} (t : Tag) (hinner : Nested inner) (h : Nested l) :
      Nested (.opened t :: (inner ++ .closed t.name :: l))

/-- The events of one element with all that it contains. -/
inductive IsElement (name : Bytes) : List Event → Prop
  | empty {t : Tag} (hname : t.name = name) : IsElement name [.empty t]
  | nested {t : Tag} {inner : List Event} (hname : t.name = name) (h : Nested inner) :
      IsElement name (.opened t :: (inner ++ [.closed name]))

theorem IsElement.to_nested {name : Bytes} {l : List Event} (h : IsElement name l) : Nested l := by
  cases h with
  | empty hname => exact .empty _ .nil
  | nested hname h => exact hname ▸ .element _ h .nil

end LinkOrder.Markup

namespace LinkOrder.UnitFile

open Text Markup

def elementNames : List String := ["unit", "import", "def", "pre", "dep"]

theorem ofTag?_eq_none {t : Tag} (h : ∀ known ∈ elementNames, t.name ≠ encode known) :
    Element.ofTag? t = none := by
  simp only [elementNames, List.forall_mem_cons] at h
  obtain ⟨hunit, himport, hdefn, hpre, hdep, -⟩ := h
  rw [Element.ofTag?, if_neg hunit, if_neg himport, RefKind.ofName?, if_neg hdefn, if_neg hpre, if_neg hdep]
  rfl

variable {fault : Option Markup.Error} {place : Place} {skip : Option Skip} {l element rest : List Markup.Event}
  {name : Bytes}

theorem readOn_nested (h : Nested l) (s : Skip) (rest : List Markup.Event) :
    readOn fault place (some s) (l ++ rest) = readOn fault place (some s) rest := by
  induction h generalizing s rest with
  | nil => rfl
  | passed _ ih => exact ih s rest
  | empty _ _ ih => exact ih s rest
  | @element inner l t _ _ ihinner ih =>
    rw [List.cons_append, List.append_assoc, List.cons_append, readOn]
    by_cases hname : t.name = s.name
    · have hopened : s.past (.opened t) = some { s with depth := s.depth + 1 } := by
        rw [Skip.past, if_pos hname]
      have hclosed : Skip.past { s with depth := s.depth + 1 } (.closed t.name) = some s := by
        rw [Skip.past, if_pos hname]
      simp only [hopened]
      rw [ihinner, readOn, hclosed]
      exact ih s rest
    · have hopened : s.past (.opened t) = some s := by rw [Skip.past, if_neg hname]
      have hclosed : s.past (.closed t.name) = some s := by rw [Skip.past, if_neg hname]
      simp only [hopened]
      rw [ihinner, readOn, hclosed]
      exact ih s rest

theorem readOn_unrecognised (h : IsElement name element) (hname : ∀ known ∈ elementNames, name ≠ encode known)
    (hplace : place ≠ .prolog) :
    readOn fault place skip (element ++ rest) = readOn fault place skip rest := by
  cases skip with
  | some s => exact readOn_nested h.to_nested s rest
  | none =>
    cases h with
    | @empty t heq =>
      have hnone := ofTag?_eq_none (t := t) (heq ▸ hname)
      simp only [List.cons_append, List.nil_append, readOn, if_neg hplace, hnone]
    | @nested t inner heq h =>
      have hnone := ofTag?_eq_none (t := t) (heq ▸ hname)
      have hclosed : Skip.past ⟨t.name, 0⟩ (.closed name) = none := by rw [Skip.past, if_pos heq.symm]
      simp only [List.cons_append, List.append_assoc, List.nil_append, readOn, if_neg hplace, hnone]
      rw [readOn_nested h, readOn, hclosed]

/-- The second reader has an element more to read than the first, or has read it already. -/
inductive Inserted (element : List Markup.Event) : Reader → Reader → Prop
  | past (r : Reader) : Inserted element r r
  | ahead {l rest : List Markup.Event} {fault : Option Markup.Error} {place : Place}
      (h : place = .prolog → ∃ event ∈ l, event.tag?.isSome) :
      Inserted element ⟨⟨l ++ rest, fault⟩, place⟩ ⟨⟨l ++ (element ++ rest), fault⟩, place⟩

def SameCall (element : List Markup.Event) (x x' : Except Error Event × Reader) : Prop :=
  x'.1 = x.1 ∧ ∀ event, x.1 = .ok event → Inserted element x.2 x'.2

theorem SameCall.tell (hplace : place ≠ .prolog) (isEmpty : Bool) (told : Except Error Element) :
    SameCall element (tell fault place isEmpty (l ++ rest) told)
      (tell fault place isEmpty (l ++ (element ++ rest)) told) := by
  have hafter (event : Event) : place.after isEmpty event ≠ .prolog := by
    cases event <;> cases isEmpty <;> simp [Place.after, hplace]
  unfold UnitFile.tell
  cases told.bind (eventOf place) with
  | error e => exact ⟨rfl, by simp⟩
  | ok event => exact ⟨rfl, fun _ _ ↦ .ahead fun heq ↦ absurd heq (hafter event)⟩

theorem readOn_inserted (h : IsElement name element) (hname : ∀ known ∈ elementNames, name ≠ encode known)
    (hprolog : place = .prolog → skip = none ∧ ∃ event ∈ l, event.tag?.isSome) :
    SameCall element (readOn fault place skip (l ++ rest)) (readOn fault place skip (l ++ (element ++ rest))) := by
  induction l generalizing place skip with
  | nil =>
    have hplace : place ≠ .prolog := by
      intro heq
      obtain ⟨-, event, hmem, -⟩ := hprolog heq
      cases hmem
    rw [List.nil_append, List.nil_append, readOn_unrecognised h hname hplace]
    exact ⟨rfl, fun _ _ ↦ .past _⟩
  | cons event l ih =>
    rw [List.cons_append, List.cons_append]
    cases skip with
    | some s =>
      simp only [readOn]
      exact ih fun heq ↦ absurd (hprolog heq).1 (by simp)
    | none =>
      by_cases hplace : place = .prolog
      · subst hplace
        -- the first tag is the root's: until then it is still ahead, and after it the place is not the prolog
        obtain ⟨-, root, hmem, hroot⟩ := hprolog rfl
        have later (hne : root ≠ event) : SameCall element (readOn fault .prolog none (l ++ rest))
            (readOn fault .prolog none (l ++ (element ++ rest))) :=
          ih fun _ ↦ ⟨rfl, root, List.mem_of_ne_of_mem hne hmem, hroot⟩
        have outside : SameCall element (readOn fault .outside none (l ++ rest))
            (readOn fault .outside none (l ++ (element ++ rest))) := ih (by simp)
        simp only [readOn, if_pos]
        cases event with
        | passed => exact later fun heq ↦ by simp [heq, Event.tag?] at hroot
        | closed name => exact later fun heq ↦ by simp [heq, Event.tag?] at hroot
        | opened t =>
          dsimp only
          split
          · exact outside
          · exact ⟨rfl, by simp⟩
        | empty t =>
          dsimp only
          split
          · exact outside
          · exact ⟨rfl, by simp⟩
      · simp only [readOn, if_neg hplace]
        have later (skip : Option Skip) : SameCall element (readOn fault place skip (l ++ rest))
            (readOn fault place skip (l ++ (element ++ rest))) := ih fun heq ↦ absurd heq hplace
        cases event with
        | passed => exact later none
        | closed name =>
          dsimp only
          split
          · exact ⟨rfl, fun _ _ ↦ .ahead (by simp)⟩
          · exact later none
        | opened t =>
          dsimp only
          cases Element.ofTag? t with
          | none => exact later _
          | some told => exact .tell hplace false told
        | empty t =>
          dsimp only
          cases Element.ofTag? t with
          | none => exact later none
          | some told => exact .tell hplace true told

theorem inStep_inserted (h : IsElement name element) (hname : ∀ known ∈ elementNames, name ≠ encode known) :
    InStep id (Inserted element) := by
  have hcall (r r' : Reader) (hr : Inserted element r r') : SameCall element r.next r'.next := by
    cases hr with
    | past => exact ⟨rfl, fun _ _ ↦ .past _⟩
    | @ahead l rest fault place hroot =>
      unfold Reader.next
      by_cases hending : place = .ending
      · simp only [if_pos hending]
        exact ⟨rfl, fun _ _ ↦ .ahead (by simp)⟩
      · simp only [if_neg hending]
        exact readOn_inserted h hname fun heq ↦ ⟨rfl, hroot heq⟩
  exact {
    view_eq_eof := fun _ ↦ Iff.rfl
    told := fun r r' hr ↦ congrArg (Except.map id) (hcall r r' hr).1
    next := fun r r' event hr ↦ (hcall r r' hr).2 event }

/-- Between two markups of a file, anywhere after the start of its root, any element can be put that is not one of a
unit file's. Whatever is nested in it, the file then has the same contents as before, or the same error. The file
arrives whole here; in blocks, whose borders the element moves, a document type may come to end elsewhere. -/
theorem unrecognised_element_changes_nothing {a e : Bytes} {before element : List Markup.Event} {name : Bytes}
    (ha : Markups a before) (hroot : ∃ event ∈ before, event.tag?.isSome) (he : Markups e element)
    (helement : IsElement name element) (hname : ∀ known ∈ elementNames, name ≠ encode known) (b : Bytes) :
    read (.ofBytes (a ++ e ++ b)) = read (.ofBytes (a ++ b)) := by
  apply (inStep_inserted helement hname).read_eq
  rw [List.append_assoc, ha.ofBytes_append, ha.ofBytes_append, he.ofBytes_append]
  exact .ahead fun _ ↦ hroot

namespace Margin

def opening : Bytes := encode "<units>" ++ (encode "<unit name=\"a\">" ++ [])

def note : Bytes :=
  encode "<note>" ++ (encode "one <note kind='/note>'/>" ++ (encode "<unit>" ++ (encode "<note >" ++
    (encode "</note >" ++ (encode "</unit>" ++ (encode "<!-- </note> -->" ++ (encode "<![CDATA[</note>]]>" ++
      (encode "</note>" ++ []))))))))

def closing : Bytes := encode "<dep id=\"d\"/></unit></units>"

theorem markups_opening : Markups opening
    [.opened ⟨encode "units", []⟩, .opened ⟨encode "unit", encode " name=\"a\""⟩] :=
  .next (.of_read [0] (by simp) rfl) (.next (.of_read [0] (by simp) rfl) (.text (by simp)))

def inner : List Markup.Event :=
  [.empty ⟨encode "note", encode " kind='/note>'"⟩, .opened ⟨encode "unit", []⟩,
    .opened ⟨encode "note", encode " "⟩, .closed (encode "note"), .closed (encode "unit"), .passed, .passed]

theorem nested_inner : Nested inner := by
  have hunit : Nested [.opened ⟨encode "note", encode " "⟩, .closed (encode "note")] :=
    .element ⟨encode "note", encode " "⟩ .nil .nil
  exact .empty _ (.element ⟨encode "unit", []⟩ hunit (.passed (.passed .nil)))

theorem markups_note :
    Markups note (.opened ⟨encode "note", []⟩ :: (inner ++ [.closed (encode "note")])) := by
  have hone {l : Bytes} {event : Markup.Event}
      (h : Markup.read .whole (l ++ [0]) = .event event [0]) : Complete l event := .of_read [0] (by simp) h
  exact .next (hone rfl) (.next (hone rfl) (.next (hone rfl) (.next (hone rfl) (.next (hone rfl)
    (.next (hone rfl) (.next (hone rfl) (.next (hone rfl) (.next (hone rfl) (.text (by simp))))))))))

theorem note_is_not_read :
    read (.ofBytes (opening ++ note ++ closing)) = .ok ⟨[{ name := "a", deps := ["d"] }], []⟩ := by
  rw [unrecognised_element_changes_nothing markups_opening ⟨_, List.mem_cons_self, rfl⟩ markups_note
    (.nested rfl nested_inner) (by decide) closing]
  exact eq_ok_of_toOption (by decide +kernel)

end Margin

end LinkOrder.UnitFile
