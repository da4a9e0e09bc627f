import LinkOrder.Proofs.EventStream

namespace LinkOrder

/-- A loop that starts at `s` is over after `n` turns and gives `a`. -/
inductive LoopEnds {σ α : Type} (turn : σ → σ ⊕ α) : Nat → σ → α → Prop
  | stop {s : σ} {a : α} (h : turn s = .inr a) : LoopEnds turn 1 s a
  | next {n : Nat} {s s' : σ} {a : α} (h : turn s = .inl s') (hrest : LoopEnds turn n s' a) :
      LoopEnds turn (n + 1) s a

/-- A loop ends if every turn after which it goes on takes at least `c` off a weight. It gives what `f` says, as far as
`view` shows, if one turn does not change what `f` says. -/
theorem exists_loopEnds {σ α β : Type} {turn : σ → σ ⊕ α} {weight : σ → Nat} {c : Nat} {f : σ → β} {view : α → β}
    (hc : 0 < c) (hturn : ∀ s s', turn s = .inl s' → weight s' + c ≤ weight s)
    (hf : ∀ s, f s = (turn s).elim f view) (s : σ) :
    ∃ n a, c * n ≤ weight s + c ∧ LoopEnds turn n s a ∧ f s = view a := by
  generalize hweight : weight s = w
  induction w using Nat.strongRecOn generalizing s with
  | ind w ih =>
    cases hs : turn s with
    | inr a =>
      refine ⟨1, a, by omega, .stop hs, ?_⟩
      rw [hf, hs]
      rfl
    | inl s' =>
      have hle := hturn s s' hs
      obtain ⟨n, a, hn, hends, hview⟩ := ih (weight s') (by omega) s' rfl
      refine ⟨n + 1, a, ?_, .next hs hends, ?_⟩
      · rw [Nat.mul_succ]
        omega
      · rw [hf, hs]
        exact hview

end LinkOrder

namespace LinkOrder.Markup

open Text

variable {d : Delivery} {input rest : Bytes}

theorem length_read_add_two_le {e : Event} (h : read d input = .event e rest) : rest.length + 2 ≤ input.length := by
  have hmarkup := length_readMarkup_lt h
  have hdrop := length_dropWhile_le (· != byte '<') input
  rw [List.length_drop] at hmarkup
  omega

def attributeTurn (s : Bytes × List Attribute) : (Bytes × List Attribute) ⊕ List Attribute :=
  match readAttribute s.1 with
  | none => .inr s.2
  | some (a, rest) => .inl (rest, s.2 ++ a.toList)

theorem Tag.exists_loopEnds_attributeList (t : Tag) :
    ∃ n ≤ t.attributes.length + 1, LoopEnds attributeTurn n (t.attributes, []) t.attributeList := by
  have hturn (s s' : Bytes × List Attribute) (h : attributeTurn s = .inl s') : s'.1.length + 1 ≤ s.1.length := by
    unfold attributeTurn at h
    split at h
    · cases h
    · next hread =>
      cases h
      exact length_readAttribute_lt hread
  have hlist (s : Bytes × List Attribute) :
      s.2 ++ attributesOf s.1 = (attributeTurn s).elim (fun s ↦ s.2 ++ attributesOf s.1) id := by
    unfold attributeTurn
    split
    · next hread => simp [attributesOf_of_none hread]
    · next hread => simp [attributesOf_of_some hread]
  obtain ⟨n, l, hn, hends, hl⟩ := exists_loopEnds Nat.one_pos hturn hlist (t.attributes, [])
  obtain rfl : t.attributeList = l := hl
  exact ⟨n, by simpa using hn, hends⟩

end LinkOrder.Markup

namespace LinkOrder.UnitFile

open Text Markup

structure Feed where
  left : Bytes
  place : Place

abbrev Taken := (Place × Option Skip) ⊕ (Except Error Event × Place)

def takeRoot : Markup.Event → Taken
  | .opened t | .empty t =>
    if t.name = encode "units" then .inl (.outside, none)
    else .inr (.error (.unexpectedRoot (.ofList (decodeLossy t.name))), .prolog)
  | .closed _ | .passed => .inl (.prolog, none)

namespace Place

def takeElement (place : Place) (isEmpty : Bool) (element : Except Error Element) : Taken :=
  let result := element.bind (eventOf place)
  .inr (result, result.toOption.elim place (place.after isEmpty))

def takeWithin (place : Place) : Markup.Event → Taken
  | .passed => .inl (place, none)
  | .closed name =>
    if name = encode "unit" ∧ place = .inside then .inr (.ok .unitEnd, .outside) else .inl (place, none)
  | .opened t => (Element.ofTag? t).elim (.inl (place, some ⟨t.name, 0⟩)) (place.takeElement false)
  | .empty t => (Element.ofTag? t).elim (.inl (place, none)) (place.takeElement true)

def take (place : Place) (e : Markup.Event) : Option Skip → Taken
  | some s => .inl (place, s.past e)
  | none => if place = .prolog then takeRoot e else place.takeWithin e

end Place

section Loop

variable {fault : Option Markup.Error} {place : Place} {rest : List Markup.Event}

def Taken.finish (fault : Option Markup.Error) (rest : List Markup.Event) : Taken → Except Error Event × Reader :=
  Sum.elim (fun p ↦ readOn fault p.1 p.2 rest) fun p ↦ (p.1, ⟨⟨rest, fault⟩, p.2⟩)

theorem finish_takeElement (isEmpty : Bool) (element : Except Error Element) :
    (place.takeElement isEmpty element).finish fault rest = tell fault place isEmpty rest element := by
  unfold Place.takeElement tell
  cases element.bind (eventOf place) <;> rfl

theorem finish_takeRoot (e : Markup.Event) :
    (takeRoot e).finish fault rest = readOn fault .prolog none (e :: rest) := by
  simp only [readOn, if_pos]
  cases e with
  | passed => rfl
  | closed name => rfl
  | opened t =>
    simp only [takeRoot]
    split <;> rfl
  | empty t =>
    simp only [takeRoot]
    split <;> rfl

theorem finish_takeWithin (hplace : place ≠ .prolog) (e : Markup.Event) :
    (place.takeWithin e).finish fault rest = readOn fault place none (e :: rest) := by
  simp only [readOn, if_neg hplace]
  cases e with
  | passed => rfl
  | closed name =>
    simp only [Place.takeWithin]
    split <;> rfl
  | opened t =>
    simp only [Place.takeWithin]
    cases Element.ofTag? t with
    | none => rfl
    | some element => exact finish_takeElement false element
  | empty t =>
    simp only [Place.takeWithin]
    cases Element.ofTag? t with
    | none => rfl
    | some element => exact finish_takeElement true element

theorem finish_take (place : Place) (skip : Option Skip) (e : Markup.Event) :
    (place.take e skip).finish fault rest = readOn fault place skip (e :: rest) := by
  cases skip with
  | some s => rfl
  | none =>
    by_cases hplace : place = .prolog
    · rw [Place.take, if_pos hplace, finish_takeRoot, hplace]
    · rw [Place.take, if_neg hplace, finish_takeWithin hplace]

end Loop

namespace Feed

def reader (f : Feed) (d : Delivery) : Reader := ⟨.arriving d f.left, f.place⟩

/-- One turn of a call: the next markup is read, within an element that is skipped or outside of such elements. At the
end of the text and at a fault of the markup nothing is left to be read. -/
def turn (d : Delivery) (s : Feed × Option Skip) : (Feed × Option Skip) ⊕ (Except Error Event × Feed) :=
  match Markup.read d s.1.left with
  | .eof => .inr (atEnd s.1.place s.2, ⟨[], s.1.place⟩)
  | .failed e => .inr (.error (.markup e), ⟨[], s.1.place⟩)
  | .event e left => (s.1.place.take e s.2).map (fun p ↦ (⟨left, p.1⟩, p.2)) fun p ↦ (p.1, ⟨left, p.2⟩)

/-- A call is over after `n` turns with this result, and leaves `f'` to the next one. The end of a unit that is an empty
element is told without a turn. -/
inductive Call (d : Delivery) (f : Feed) : Nat → Except Error Event → Feed → Prop
  | ending (h : f.place = .ending) : Call d f 0 (.ok .unitEnd) ⟨f.left, .outside⟩
  | loop {n : Nat} {result : Except Error Event} {f' : Feed} (h : f.place ≠ .ending)
      (hends : LoopEnds (turn d) n (f, none) (result, f')) : Call d f n result f'

/-- Successive calls from `f` on tell these events, none of them the end of the file, and lead to `f'`. All of them
together have `n` turns. -/
inductive Calls (d : Delivery) (f : Feed) : List Event → Nat → Feed → Prop
  | none : Calls d f [] 0 f
  | next {events : List Event} {event : Event} {n m : Nat} {f' f'' : Feed} (h : Calls d f events n f')
      (hcall : Call d f' m (.ok event) f'') (hne : event ≠ .eof) : Calls d f (events ++ [event]) (n + m) f''

def weight (f : Feed) : Nat := f.left.length + if f.place = .ending then 1 else 0

variable {d : Delivery} {f f' : Feed} {s s' : Feed × Option Skip} {n : Nat} {event : Event} {events : List Event}

theorem turn_cases (d : Delivery) (s : Feed × Option Skip) :
    (∃ result, turn d s = .inr (result, ⟨[], s.1.place⟩) ∧ ∀ event, result = .ok event → event = .eof) ∨
      ∃ (left : Bytes) (taken : Taken), left.length + 2 ≤ s.1.left.length ∧
        turn d s = taken.map (fun p ↦ (⟨left, p.1⟩, p.2)) fun p ↦ (p.1, ⟨left, p.2⟩) := by
  unfold turn
  cases hread : Markup.read d s.1.left with
  | eof => exact .inl ⟨_, rfl, fun event h ↦ (eq_of_atEnd h).1⟩
  | failed e => exact .inl ⟨_, rfl, by simp⟩
  | event e left => exact .inr ⟨left, _, length_read_add_two_le hread, rfl⟩

theorem length_left_of_next (h : turn d s = .inl s') : s'.1.left.length + 2 ≤ s.1.left.length := by
  rcases turn_cases d s with ⟨result, hturn, -⟩ | ⟨left, taken, hle, hturn⟩
  · cases hturn.symm.trans h
  · cases taken with
    | inl p =>
      cases hturn.symm.trans h
      exact hle
    | inr p => cases hturn.symm.trans h

theorem length_left_of_told (h : turn d s = .inr (.ok event, f')) (hne : event ≠ .eof) :
    f'.left.length + 2 ≤ s.1.left.length := by
  rcases turn_cases d s with ⟨result, hturn, heof⟩ | ⟨left, taken, hle, hturn⟩
  · cases hturn.symm.trans h
    exact absurd (heof event rfl) hne
  · cases taken with
    | inl p => cases hturn.symm.trans h
    | inr p =>
      obtain ⟨-, rfl⟩ := Prod.mk.inj (Sum.inr.inj (hturn.symm.trans h))
      exact hle

def outcome (d : Delivery) (s : Feed × Option Skip) : Except Error Event × Reader :=
  readOn (Document.arriving d s.1.left).fault s.1.place s.2 (Document.arriving d s.1.left).events

theorem outcome_turn (d : Delivery) (s : Feed × Option Skip) :
    outcome d s = (turn d s).elim (outcome d) fun p ↦ (p.1, p.2.reader d) := by
  -- after the end of the text and after a fault the reader has an empty document, which is that of no bytes
  have hnil : Document.arriving d [] = ⟨[], none⟩ := Document.arriving_of_eof rfl
  unfold turn outcome
  cases hread : Markup.read d s.1.left with
  | eof =>
    rw [Document.arriving_of_eof hread]
    simp only [Sum.elim_inr, reader, hnil]
    rfl
  | failed e =>
    rw [Document.arriving_of_failed hread]
    simp only [Sum.elim_inr, reader, hnil]
    rfl
  | event e left =>
    rw [Document.arriving_of_event hread]
    dsimp only
    rw [← finish_take]
    cases s.1.place.take e s.2 <;> rfl

theorem exists_call (d : Delivery) (f : Feed) :
    ∃ n result f', 2 * n ≤ f.left.length + 2 ∧ Call d f n result f' ∧ (f.reader d).next = (result, f'.reader d) := by
  by_cases hplace : f.place = .ending
  · exact ⟨0, _, _, by omega, .ending hplace, if_pos hplace⟩
  · obtain ⟨n, ⟨result, f'⟩, hn, hends, houtcome⟩ :=
      exists_loopEnds Nat.two_pos (fun s s' ↦ length_left_of_next) (outcome_turn d) (f, none)
    refine ⟨n, result, f', hn, .loop hplace hends, ?_⟩
    rw [Reader.next, if_neg (by exact hplace)]
    exact houtcome

theorem length_left_of_loopEnds (h : LoopEnds (turn d) n s (.ok event, f')) (hne : event ≠ .eof) :
    0 < n ∧ 2 * n + f'.left.length ≤ s.1.left.length := by
  -- also the last turn: the only event that is told without a markup is the end of the file
  generalize ha : (Except.ok event, f') = a at h
  induction h with
  | stop hturn =>
    subst ha
    have hle := length_left_of_told hturn hne
    omega
  | next hturn _ ih =>
    have hle := length_left_of_next hturn
    have hrest := ih ha
    omega

theorem Call.length_left (h : Call d f n (.ok event) f') (hne : event ≠ .eof) :
    2 * n + f'.left.length ≤ f.left.length := by
  cases h with
  | ending hplace => simp
  | loop hplace hends => exact (length_left_of_loopEnds hends hne).2

theorem Call.weight_lt (h : Call d f n (.ok event) f') (hne : event ≠ .eof) : f'.weight < f.weight := by
  -- A unit that is an empty element is told by two calls, but its markup is longer than one byte.
  cases h with
  | ending hplace => simp [weight, hplace]
  | loop hplace hends =>
    obtain ⟨hn, hle⟩ := length_left_of_loopEnds hends hne
    dsimp only at hle
    simp only [weight, if_neg hplace]
    split <;> omega

namespace Calls

theorem length_add_weight_le (h : Calls d f events n f') : events.length + f'.weight ≤ f.weight := by
  induction h with
  | none => simp
  | next _ hcall hne ih =>
    have hlt := hcall.weight_lt hne
    rw [List.length_append, List.length_singleton]
    omega

theorem length_left (h : Calls d f events n f') : 2 * n + f'.left.length ≤ f.left.length := by
  induction h with
  | none => simp
  | next _ hcall hne ih =>
    have hle := hcall.length_left hne
    omega

theorem of_reader {r : Reader} (h : (f.reader d).Calls events r) : ∃ n f', Calls d f events n f' ∧ r = f'.reader d := by
  induction h with
  | none => exact ⟨0, f, .none, rfl⟩
  | next _ hnext hne ih =>
    obtain ⟨n, f', hcalls, rfl⟩ := ih
    obtain ⟨m, result, f'', -, hcall, heq⟩ := exists_call d f'
    cases heq.symm.trans hnext
    exact ⟨n + m, f'', hcalls.next hcall hne, rfl⟩

end Calls

end Feed

/-- Whatever the bytes of a file, well formed or not, and wherever in them reading stands, a call ends, and so does the
loop over the attributes of a tag. The end of the file or the first error is told after at most as many events as the
file has bytes. The calls up to it have a turn for every two bytes and one more at most, all together, so the reading of
the whole file ends, with what was told or with that error. -/
theorem reading_always_ends (d : Delivery) (input : Bytes) :
    (∀ f : Feed, ∃ n result f', 2 * n ≤ f.left.length + 2 ∧ Feed.Call d f n result f' ∧
      (f.reader d).next = (result, f'.reader d)) ∧
    (∀ t : Tag, ∃ n ≤ t.attributes.length + 1, LoopEnds attributeTurn n (t.attributes, []) t.attributeList) ∧
    ∃ events n f m last f', Feed.Calls d ⟨input, .prolog⟩ events n f ∧ Feed.Call d f m last f' ∧
      (last = .ok .eof ∨ ∃ e, last = .error e) ∧ events.length ≤ input.length ∧ 2 * (n + m) ≤ input.length + 2 ∧
      read (.arriving d input) = last.map fun _ ↦ .ofEvents events := by
  refine ⟨Feed.exists_call d, Tag.exists_loopEnds_attributeList, ?_⟩
  obtain ⟨r, hreader, hlast⟩ := Reader.exists_calls (Feed.reader ⟨input, .prolog⟩ d)
  obtain ⟨n, f, hcalls, rfl⟩ := Feed.Calls.of_reader hreader
  obtain ⟨m, last, f', hm, hcall, hnext⟩ := Feed.exists_call d f
  have heq := congrArg Prod.fst (hnext.symm.trans hlast)
  have hend : last = .ok .eof ∨ ∃ e, last = .error e := by
    cases hresult : (Reader.run (Feed.reader ⟨input, .prolog⟩ d)).result with
    | error e =>
      rw [hresult] at heq
      exact .inr ⟨e, heq⟩
    | ok _ =>
      rw [hresult] at heq
      exact .inl heq
  have hevents := hcalls.length_add_weight_le
  change _ + f.weight ≤ input.length at hevents
  have hturns : 2 * n + f.left.length ≤ input.length := hcalls.length_left
  refine ⟨_, n, f, m, last, f', hcalls, hcall, hend, by omega, by omega, ?_⟩
  refine read_of_calls hreader hnext fun event h ↦ ?_
  rcases hend with rfl | ⟨e, rfl⟩
  · exact (Except.ok.inj h).symm
  · cases h

-- No fewer turns will do: every two bytes may be a markup, and then the end of the file takes one more.
example : Feed.Call .whole ⟨encode "</", .outside⟩ 2 (.ok .eof) ⟨[], .outside⟩ :=
  .loop (by decide) (.next rfl (.stop rfl))

end LinkOrder.UnitFile
