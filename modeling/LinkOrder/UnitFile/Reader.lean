import LinkOrder.Markup.Document
import LinkOrder.UnitFile.Element

namespace LinkOrder.UnitFile

open Text Markup

inductive Event
  | imported (path : String)
  | unitStart (head : UnitHead)
  | ref (kind : RefKind) (id : String)
  | unitEnd
  | eof
  deriving DecidableEq, Repr

inductive Place
  | prolog
  | outside
  | inside
  /-- Within a unit that is an empty element and whose end is still to be told. -/
  | ending
  deriving DecidableEq, Repr

structure Reader where
  document : Document
  place : Place := .prolog

/-- An unrecognised element being skipped, and how many of the same name are open within it. -/
structure Skip where
  name : Bytes
  depth : Nat

/-- Goes past one event of a skipped element; `none` once that element is closed. -/
def Skip.past (s : Skip) : Markup.Event → Option Skip
  | .opened t => some (if t.name = s.name then { s with depth := s.depth + 1 } else s)
  | .closed name =>
    if name = s.name then
      match s.depth with
      | 0 => none
      | d + 1 => some { s with depth := d }
    else some s
  | _ => some s

def eventOf (place : Place) : Element → Except Error Event
  | .unit head => if place = .inside then .error (.nestedUnit head.name) else .ok (.unitStart head)
  | .ref kind id => if place = .inside then .ok (.ref kind id) else .error (.orphanRef kind.element id)
  | .imported path => if place = .inside then .error (.nestedImport path) else .ok (.imported path)

/-- The place after an event was told; `isEmpty` if it came from an empty element. -/
def Place.after (place : Place) (isEmpty : Bool) : Event → Place
  | .unitStart _ => if isEmpty then .ending else .inside
  | .unitEnd => .outside
  | _ => place

def atEnd (place : Place) (skip : Option Skip) : Except Error Event :=
  match skip, place with
  | some s, _ => .error (.markup (.unexpectedEof s!"</{quoteName s.name}>"))
  | none, .prolog => .error .missingRoot
  | none, .outside => .ok .eof
  | none, _ => .error .unexpectedEof

def tell (fault : Option Markup.Error) (place : Place) (isEmpty : Bool) (rest : List Markup.Event)
    (element : Except Error Element) : Except Error Event × Reader :=
  match element.bind (eventOf place) with
  | .ok ev => (.ok ev, ⟨⟨rest, fault⟩, place.after isEmpty ev⟩)
  | .error e => (.error e, ⟨⟨rest, fault⟩, place⟩)

def readOn (fault : Option Markup.Error) (place : Place) (skip : Option Skip) :
    List Markup.Event → Except Error Event × Reader
  | [] => (fault.elim (atEnd place skip) fun e ↦ .error (.markup e), ⟨⟨[], none⟩, place⟩)
  | e :: rest =>
    match skip with
    | some s => readOn fault place (s.past e) rest
    | none =>
      if place = .prolog then
        match e with
        | .opened t | .empty t =>
          if t.name = encode "units" then readOn fault .outside none rest
          else (.error (.unexpectedRoot (.ofList (decodeLossy t.name))), ⟨⟨rest, fault⟩, .prolog⟩)
        | _ => readOn fault .prolog none rest
      else
        match e with
        | .passed => readOn fault place none rest
        | .closed name =>
          if name = encode "unit" ∧ place = .inside then (.ok .unitEnd, ⟨⟨rest, fault⟩, .outside⟩)
          else readOn fault place none rest
        | .opened t =>
          match Element.ofTag? t with
          | none => readOn fault place (some ⟨t.name, 0⟩) rest
          | some element => tell fault place false rest element
        | .empty t =>
          match Element.ofTag? t with
          | none => readOn fault place none rest
          | some element => tell fault place true rest element

namespace Reader

def ofBytes (input : Bytes) : Reader := ⟨.ofBytes input, .prolog⟩

def next (r : Reader) : Except Error Event × Reader :=
  if r.place = .ending then (.ok .unitEnd, { r with place := .outside })
  else readOn r.document.fault r.place none r.document.events

/-- Bounds the events still to come: every event of the document and the pending end of a unit. -/
def weight (r : Reader) : Nat :=
  2 * r.document.events.length + if r.place = .ending then 1 else 0

end Reader

theorem Reader.weight_le (r : Reader) : r.weight ≤ 2 * r.document.events.length + 1 := by
  simp only [weight]
  split <;> omega

theorem events_tell {fault : Option Markup.Error} {place : Place} {isEmpty : Bool}
    {rest : List Markup.Event} {element : Except Error Element} :
    (tell fault place isEmpty rest element).2.document.events = rest := by
  unfold tell
  split <;> rfl

theorem length_readOn_le (fault : Option Markup.Error) (place : Place) (skip : Option Skip)
    (l : List Markup.Event) :
    (readOn fault place skip l).2.document.events.length ≤ l.length - 1 := by
  induction l generalizing place skip with
  | nil => exact Nat.le_refl 0
  | cons e rest ih =>
    have later (place : Place) (skip : Option Skip) :
        (readOn fault place skip rest).2.document.events.length ≤ rest.length :=
      Nat.le_trans (ih place skip) (Nat.sub_le _ _)
    have told (isEmpty : Bool) (element : Except Error Element) :
        (tell fault place isEmpty rest element).2.document.events.length ≤ rest.length :=
      Nat.le_of_eq (congrArg List.length events_tell)
    unfold readOn
    split
    · exact later _ _
    · split
      · split
        · split
          · exact later _ _
          · exact Nat.le_refl _
        · split
          · exact later _ _
          · exact Nat.le_refl _
        · exact later _ _
      · split
        · exact later _ _
        · split
          · exact Nat.le_refl _
          · exact later _ _
        · split
          · exact later _ _
          · exact told _ _
        · split
          · exact later _ _
          · exact told _ _

theorem eq_eof_of_readOn_nil {fault : Option Markup.Error} {place : Place} {skip : Option Skip}
    {ev : Event} {r : Reader} (h : readOn fault place skip [] = (.ok ev, r)) : ev = .eof := by
  cases fault with
  | some e => simp [readOn] at h
  | none =>
    simp only [readOn, Option.elim_none, Prod.mk.injEq] at h
    revert h
    fun_cases atEnd place skip <;> simp_all

theorem Reader.weight_next_lt {r r' : Reader} {ev : Event} (h : r.next = (.ok ev, r'))
    (hev : ev ≠ .eof) : r'.weight < r.weight := by
  unfold next at h
  split at h
  · next hp =>
    cases h
    simp [weight, hp]
  · next hp =>
    have h₁ := length_readOn_le r.document.fault r.place none r.document.events
    have h₂ := r'.weight_le
    simp only [h] at h₁
    simp only [weight, if_neg hp]
    cases hd : r.document.events with
    | nil =>
      rw [hd] at h
      exact absurd (eq_eof_of_readOn_nil h) hev
    | cons e rest =>
      simp only [hd, List.length_cons] at h₁ ⊢
      simp only [weight] at h₂
      omega

structure Reading where
  events : List Event
  result : Except Error Unit
  reader : Reader

def Reader.run (r : Reader) : Reading :=
  match h : r.next with
  | (.error e, r') => ⟨[], .error e, r'⟩
  | (.ok ev, r') =>
    if hev : ev = .eof then ⟨[], .ok (), r'⟩
    else
      have := weight_next_lt h hev
      let later := r'.run
      { later with events := ev :: later.events }
termination_by r.weight

theorem Reader.run_of_error {r r' : Reader} {e : Error} (h : r.next = (.error e, r')) :
    r.run = ⟨[], .error e, r'⟩ := by
  rw [run]
  split <;> rename_i heq <;> rw [h] at heq <;> cases heq
  rfl

theorem Reader.run_of_eof {r r' : Reader} (h : r.next = (.ok .eof, r')) :
    r.run = ⟨[], .ok (), r'⟩ := by
  rw [run]
  split <;> rename_i heq <;> rw [h] at heq <;> cases heq
  rfl

theorem Reader.run_of_event {r r' : Reader} {ev : Event} (h : r.next = (.ok ev, r'))
    (hev : ev ≠ .eof) : r.run = { r'.run with events := ev :: r'.run.events } := by
  rw [run]
  split <;> rename_i heq <;> rw [h] at heq <;> cases heq
  rw [dif_neg hev]

end LinkOrder.UnitFile
