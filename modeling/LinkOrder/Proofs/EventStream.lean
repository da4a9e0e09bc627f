import LinkOrder.Proofs.ReadBack
import Mathlib.Logic.Function.Iterate

namespace LinkOrder.UnitFile

open Text Markup

def Place.isOpen : Place → Bool
  | .prolog | .outside => false
  | .inside | .ending => true

/-- The events that may be told while a unit is open or none is, and which of the two holds afterwards. -/
inductive Event.Turns : Bool → Event → Bool → Prop
  | imported (path : String) : Turns false (.imported path) false
  | unitStart (head : UnitHead) : Turns false (.unitStart head) true
  | ref (kind : RefKind) (id : String) : Turns true (.ref kind id) true
  | unitEnd : Turns true .unitEnd false
  | eof : Turns false .eof false

section Step

variable {fault : Option Markup.Error} {place : Place} {skip : Option Skip} {l rest : List Markup.Event}
  {element : Except Error Element} {isEmpty : Bool} {event : Event} {r r' : Reader}

/-- What one call can do: the event fits the place, and the end of the file is told at the end only. -/
structure Advances (place : Place) (event : Event) (r : Reader) : Prop where
  turns : event.Turns place.isOpen r.place.isOpen
  ended : event = .eof → r = readerAt .outside []

theorem eq_of_atEnd (h : atEnd place skip = .ok event) : event = .eof ∧ place = .outside := by
  revert h
  fun_cases atEnd place skip <;> simp_all

theorem advances_tell (hprolog : place ≠ .prolog) (hending : place ≠ .ending)
    (h : tell fault place isEmpty rest element = (.ok event, r)) : Advances place event r := by
  have hplace : place = .outside ∨ place = .inside := by cases place <;> simp_all
  unfold tell at h
  cases element with
  | error e => cases h
  | ok element =>
    -- only a unit's start changes whether a unit is open, and it is told outside of units only
    rcases hplace with rfl | rfl <;> cases element <;> cases h
    · refine ⟨?_, by simp⟩
      cases isEmpty <;> exact .unitStart _
    · exact ⟨.imported _, by simp⟩
    · exact ⟨.ref _ _, by simp⟩

theorem advances_readOn (hending : place ≠ .ending) (h : readOn fault place skip l = (.ok event, r)) :
    Advances place event r := by
  fun_induction readOn fault place skip l with
  | case1 place skip =>
    cases fault with
    | some e => cases h
    | none =>
      obtain ⟨hatEnd, rfl⟩ := Prod.mk.inj h
      obtain ⟨rfl, rfl⟩ := eq_of_atEnd hatEnd
      exact ⟨.eof, fun _ ↦ rfl⟩
  | case2 _ _ _ _ ih => exact ih hending h
  | case3 _ _ _ ih | case5 _ _ _ ih =>
    obtain ⟨hturns, hended⟩ := ih (by decide) h
    exact ⟨hturns, hended⟩
  | case4 | case6 => cases h
  | case7 _ _ _ _ ih => exact ih hending h
  | case8 _ _ _ ih | case10 _ _ _ _ _ ih | case11 _ _ _ _ _ ih | case13 _ _ _ _ _ ih =>
    exact ih hending h
  | case9 place rest hprolog name hclosed =>
    obtain ⟨-, rfl⟩ := hclosed
    cases h
    exact ⟨.unitEnd, by simp⟩
  | case12 _ _ hprolog | case14 _ _ hprolog => exact advances_tell hprolog hending h

theorem Reader.advances_next (h : r.next = (.ok event, r')) : Advances r.place event r' := by
  unfold next at h
  split at h
  · next hending =>
    cases h
    rw [hending]
    exact ⟨.unitEnd, by simp⟩
  · next hending => exact advances_readOn hending h

end Step

/-- The events told so far, by whether a unit is open. -/
inductive Told : Bool → List Event → Prop
  | between (items : List Item) : Told false (items.flatMap Item.events)
  | within (items : List Item) (head : UnitHead) (refs : List (RefKind × String)) :
      Told true (items.flatMap Item.events ++
        .unitStart head :: refs.flatMap fun ref ↦ [.ref ref.1 ref.2])

namespace Told

variable {isOpen isOpen' : Bool} {events : List Event} {event : Event}

theorem next (h : Told isOpen events) (hturns : event.Turns isOpen isOpen') (hne : event ≠ .eof) :
    Told isOpen' (events ++ [event]) := by
  cases h with
  | between items =>
    cases hturns with
    | imported path =>
      have htold := between (items ++ [.imported path])
      rwa [List.flatMap_append] at htold
    | unitStart head => exact within items head []
    | eof => exact absurd rfl hne
  | within items head refs =>
    cases hturns with
    | ref kind id =>
      have htold := within items head (refs ++ [(kind, id)])
      rw [List.flatMap_append] at htold
      rwa [List.append_assoc]
    | unitEnd =>
      have htold := between (items ++ [.unit head refs])
      rw [List.flatMap_append] at htold
      rwa [List.append_assoc, ← List.append_nil (_ ++ [Event.unitEnd])]

theorem closed (h : Told false events) : ∃ items : List Item, events = items.flatMap Item.events := by
  cases h with
  | between items => exact ⟨items, rfl⟩

theorem exists_items (h : Told isOpen events) :
    ∃ items : List Item, events <+: items.flatMap Item.events := by
  cases isOpen with
  | false =>
    obtain ⟨items, rfl⟩ := h.closed
    exact ⟨items, List.prefix_rfl⟩
  | true =>
    obtain ⟨items, hitems⟩ := (h.next .unitEnd (by simp)).closed
    exact ⟨items, hitems ▸ List.prefix_append _ _⟩

end Told

namespace Reader

variable {r r' r'' : Reader} {events : List Event} {event : Event}

/-- Successive calls from `r` on tell these events, none of them the end of the file, and lead to `r'`. -/
inductive Calls (r : Reader) : List Event → Reader → Prop
  | none : Calls r [] r
  | next {events : List Event} {event : Event} {r' r'' : Reader} (h : Calls r events r')
      (hnext : r'.next = (.ok event, r'')) (hne : event ≠ .eof) : Calls r (events ++ [event]) r''

namespace Calls

theorem told (h : Calls r events r') (hr : r.place.isOpen = false) : Told r'.place.isOpen events := by
  induction h with
  | none =>
    rw [hr]
    exact .between []
  | next _ hnext hne ih => exact ih.next (advances_next hnext).turns hne

theorem tells (h : Calls r events r') : r.Tells events r' := by
  induction h with
  | none => exact .refl r
  | next _ hnext hne ih => exact ih.trans (.one hnext hne)

theorem exists_last (h : Calls r events r') :
    ∃ r'', Calls r (events ++ r'.run.events) r'' ∧
      r''.next = (r'.run.result.map fun _ ↦ .eof, r'.run.reader) := by
  generalize hweight : r'.weight = n
  induction n using Nat.strongRecOn generalizing events r' with
  | ind n ih =>
    cases hnext : r'.next with
    | mk result r₁ =>
      cases result with
      | error e =>
        rw [run_of_error hnext, List.append_nil]
        exact ⟨r', h, hnext⟩
      | ok event =>
        by_cases heof : event = .eof
        · subst heof
          rw [run_of_eof hnext, List.append_nil]
          exact ⟨r', h, hnext⟩
        · have hlt : r₁.weight < n := hweight ▸ weight_next_lt hnext heof
          obtain ⟨r'', hcalls, hlast⟩ := ih _ hlt (h.next hnext heof) rfl
          rw [List.append_assoc] at hcalls
          rw [run_of_event hnext heof]
          exact ⟨r'', hcalls, hlast⟩

end Calls

theorem exists_calls (r : Reader) :
    ∃ r', Calls r r.run.events r' ∧ r'.next = (r.run.result.map fun _ ↦ .eof, r.run.reader) :=
  Calls.none.exists_last

theorem next_of_eof (h : r.next = (.ok .eof, r')) (n : Nat) :
    ((fun r ↦ r.next.2)^[n] r').next.1 = .ok .eof := by
  obtain rfl := (advances_next h).ended rfl
  rw [Function.iterate_fixed (f := fun r : Reader ↦ r.next.2) rfl n]
  rfl

end Reader

section Read

open Reader (Calls)

variable {document : Document} {r r' : Reader} {events : List Event}

theorem read_of_calls {result : Except Error Event} (h : Calls ⟨document, .prolog⟩ events r)
    (hlast : r.next = (result, r')) (hend : ∀ event, result = .ok event → event = .eof) :
    read document = result.map fun _ ↦ .ofEvents events := by
  have hrun := h.tells
  unfold Reader.Tells at hrun
  unfold read
  cases result with
  | error e =>
    rw [hrun, Reader.run_of_error hlast]
    rfl
  | ok event =>
    obtain rfl := hend event rfl
    rw [hrun, Reader.run_of_eof hlast, List.append_nil]
    rfl

theorem items_of_eof (h : Calls ⟨document, .prolog⟩ events r) (heof : r.next = (.ok .eof, r')) :
    ∃ items : List Item, events = items.flatMap Item.events := by
  have hplace : r.place.isOpen = false := by
    cases hopen : r.place.isOpen with
    | false => rfl
    | true =>
      have hturns := (Reader.advances_next heof).turns
      rw [hopen] at hturns
      cases hturns
  have htold := h.told rfl
  rw [hplace] at htold
  exact htold.closed

end Read

/-- Whatever the bytes of a file, its events up to the end of the file or the first error begin a list of
imports and of units that start, have references and end. The end of the file is told outside of units, and from
then on always. Reading gives all that was told if the end of the file is reached, and the first error if not. -/
theorem event_stream_of_unit_file (d : Delivery) (input : Bytes) :
    (∀ events r, Reader.Calls ⟨.arriving d input, .prolog⟩ events r →
      (∃ items : List Item, events <+: items.flatMap Item.events) ∧
      ∀ r', r.next = (.ok .eof, r') →
        (∃ items : List Item, events = items.flatMap Item.events) ∧
        ∀ n : Nat, ((fun r ↦ r.next.2)^[n] r').next.1 = .ok .eof) ∧
    (∀ contents, read (.arriving d input) = .ok contents ↔
      ∃ items r r', Reader.Calls ⟨.arriving d input, .prolog⟩ (items.flatMap Item.events) r ∧
        r.next = (.ok .eof, r') ∧ contents = contentsOf items) ∧
    ∀ e, read (.arriving d input) = .error e ↔
      ∃ events r r', Reader.Calls ⟨.arriving d input, .prolog⟩ events r ∧ r.next = (.error e, r') := by
  obtain ⟨r₁, hcalls, hlast⟩ := Reader.exists_calls ⟨.arriving d input, .prolog⟩
  refine ⟨fun events r h ↦ ⟨(h.told rfl).exists_items, fun r' heof ↦ ⟨items_of_eof h heof,
    Reader.next_of_eof heof⟩⟩, fun contents ↦ ⟨fun hread ↦ ?_, ?_⟩, fun e ↦ ⟨fun hread ↦ ?_, ?_⟩⟩
  · unfold read at hread
    cases hresult : (Reader.run ⟨.arriving d input, .prolog⟩).result with
    | error e => simp [hresult, Except.map] at hread
    | ok _ =>
      rw [hresult] at hlast
      obtain ⟨items, hitems⟩ := items_of_eof hcalls hlast
      simp only [hresult, Except.map, Except.ok.injEq] at hread
      rw [hitems, ofEvents_items] at hread
      exact ⟨items, r₁, _, hitems ▸ hcalls, hlast, hread.symm⟩
  · rintro ⟨items, r, r', h, heof, rfl⟩
    rw [read_of_calls h heof (by simp), ofEvents_items]
    rfl
  · unfold read at hread
    cases hresult : (Reader.run ⟨.arriving d input, .prolog⟩).result with
    | error e' =>
      rw [hresult] at hlast
      simp only [hresult, Except.map, Except.error.injEq] at hread
      exact ⟨_, r₁, _, hcalls, hread ▸ hlast⟩
    | ok _ => simp [hresult, Except.map] at hread
  · rintro ⟨events, r, r', h, herror⟩
    rw [read_of_calls h herror (by simp)]
    rfl

namespace Misnested

def file : Bytes :=
  encode ("</unit><units></x><unit name=\"a\"/></unit><note><def id=\"q\"></note><unit name=\"b\"></units>" ++
    "<dep id=\"d\"></unit><import path=\"p\">")

def contents : Contents := ⟨[{ name := "a" }, { name := "b", deps := ["d"] }], ["p"]⟩

theorem all_told :
    read (.arriving .whole file) = .ok contents ∧
      ∃ items r r', Reader.Calls (.ofBytes file) (items.flatMap Item.events) r ∧
        r.next = (.ok .eof, r') ∧ contents = contentsOf items := by
  have hread : read (.arriving .whole file) = .ok contents := eq_ok_of_toOption (by decide +kernel)
  exact ⟨hread, ((event_stream_of_unit_file .whole file).2.1 contents).1 hread⟩

end Misnested

end LinkOrder.UnitFile
