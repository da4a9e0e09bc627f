import LinkOrder.Proofs.Construction
import LinkOrder.Proofs.Tally

namespace LinkOrder

namespace Walk

variable {policy : Policy} {seeds : List Symbol} {s : State} {w w' : Walk} {u : LinkUnit} {e : LinkError}

/-- What the moves of a walk that began in `s` keep, even where an earlier walk was broken off. -/
structure Steady (s : State) (w : Walk) : Prop where
  order : w.state.order = s.order ++ w.visits
  nodup : (w.state.chain ++ w.state.order).Nodup
  active : ∀ u, w.Covered u → (w.state.cursor? u).isSome

namespace Steady

theorem nodup_order (hw : Steady s w) : w.state.order.Nodup := (List.nodup_append.1 hw.nodup).2.1

theorem move (hw : Steady s w) (h : Move policy seeds w w') : Steady s w' := by
  obtain ⟨N, hf⟩ := h.follows
  have hactive : ∀ u, w'.Covered u → (w'.state.cursor? u).isSome := by
    intro u hu
    exact (hf.tally.active u).2 ((hf.covered u hu).imp_left (hw.active u))
  rcases h.trail with ⟨hc, ho, hv⟩ | ⟨u, hc, hnc, hno, ho, hv⟩ | ⟨u, hc, -, ho, hv⟩
  · refine ⟨?_, ?_, hactive⟩
    · rw [ho, hv]
      exact hw.order
    · rw [hc, ho]
      exact hw.nodup
  · refine ⟨?_, ?_, hactive⟩
    · rw [ho, hv]
      exact hw.order
    · rw [hc, ho, List.cons_append, List.nodup_cons, List.mem_append]
      exact ⟨fun h ↦ h.elim hnc hno, hw.nodup⟩
  · refine ⟨?_, ?_, hactive⟩
    · rw [ho, hv, hw.order, List.append_assoc]
    · have hnodup := hw.nodup
      rw [hc] at hnodup
      rw [ho, ← List.append_assoc]
      exact (List.perm_append_singleton u _).nodup_iff.2 hnodup

theorem moves (hw : Steady s w) (h : Moves policy seeds w w') : Steady s w' := by
  induction h with
  | refl => exact hw
  | tail _ hmove ih => exact ih.move hmove

end Steady

theorem Fault.order (h : Fault policy seeds w e w') : w'.state.order = w.state.order := by
  cases h with
  | seed => exact State.order_resolve _ policy _
  | dep => exact State.order_resolve _ policy _
  | pre => exact State.order_followPre _ policy _ _
  | cycle => exact State.order_followPre _ policy _ _

end Walk

/-- The prerequisites left on a cursor are prerequisites of its unit. -/
def State.Grounded (s : State) : Prop := ∀ u k, s.cursor? u = some k → ∀ p ∈ k.pres, p ∈ u.pres

namespace State.Grounded

variable {s : State}

theorem resolve (hs : s.Grounded) (policy : Policy) (name : Symbol) : (s.resolve policy name).2.Grounded := by
  intro u k hk p hp
  rcases s.cursor?_resolve policy name u with heq | ⟨-, -, heq⟩
  · exact hs u k (heq.symm.trans hk) p hp
  · cases heq.symm.trans hk
    exact hp

theorem update {f : Context → Context} {g : Cursor → Cursor} (hf : ∀ c, (f c).unit = c.unit)
    (hg : ∀ c, (f c).cursor = c.cursor.map g) (hsub : ∀ k, ∀ p ∈ (g k).pres, p ∈ k.pres) (hs : s.Grounded)
    (u : LinkUnit) : (s.update u f).Grounded := by
  intro v k hk p hp
  rw [cursor?_update hf hg] at hk
  split at hk
  · obtain ⟨k', hk', rfl⟩ := Option.map_eq_some_iff.1 hk
    exact hs v k' hk' p (hsub k' p hp)
  · exact hs v k hk p hp

theorem followPre (hs : s.Grounded) (policy : Policy) (u : LinkUnit) (p : Symbol) :
    (s.followPre policy u p).Grounded := by
  apply resolve
  exact hs.update Context.dropPre_unit Context.dropPre_cursor (fun _ _ hp ↦ List.mem_of_mem_tail hp) u

theorem followDep (hs : s.Grounded) (policy : Policy) (u : LinkUnit) (d : Symbol) :
    ((s.update u Context.dropDep).resolve policy d).2.Grounded := by
  apply resolve
  exact hs.update Context.dropDep_unit Context.dropDep_cursor (fun _ _ hp ↦ hp) u

end State.Grounded

namespace Walk

variable {policy : Policy} {seeds : List Symbol} {w w' : Walk} {e : LinkError}

theorem Move.grounded (h : Move policy seeds w w') (hw : w.state.Grounded) : w'.state.Grounded := by
  cases h with
  | seed => exact hw.resolve policy _
  | dep => exact hw.followDep policy _ _
  | pass => exact hw.followPre policy _ _
  | descend => exact hw.followPre policy _ _
  | visit => exact hw
  | skip => exact hw
  | begin => exact hw

theorem Moves.grounded (h : Moves policy seeds w w') (hw : w.state.Grounded) : w'.state.Grounded := by
  induction h with
  | refl => exact hw
  | tail _ hmove ih => exact hmove.grounded ih

theorem Fault.grounded (h : Fault policy seeds w e w') (hw : w.state.Grounded) : w'.state.Grounded := by
  cases h with
  | seed => exact hw.resolve policy _
  | dep => exact hw.followDep policy _ _
  | pre => exact hw.followPre policy _ _
  | cycle => exact hw.followPre policy _ _

end Walk

theorem State.Grounded.traverse {s : State} (hs : s.Grounded) (hidle : s.chain = []) (policy : Policy)
    (start : Option (List Symbol)) : (s.traverse policy start).state.Grounded := by
  cases h : (s.traverse policy start).error with
  | none =>
    obtain ⟨w, hmoves, -, -, heq⟩ := moves_of_ok h
    rw [heq]
    exact hmoves.grounded hs
  | some e =>
    obtain ⟨w, w', hmoves, hfault, heq⟩ := moves_of_error hidle h
    rw [heq]
    exact hfault.grounded (hmoves.grounded hs)

namespace State

open Walk

variable {s t r : State} {policy : Policy} {u : LinkUnit} {M : Symbol → Prop}

/-- What holds of a state between calls. -/
structure Sound (s : State) : Prop where
  names : (s.units.map (·.name)).Nodup
  idle : s.chain = []
  nodup : s.order.Nodup
  active : ∀ u ∈ s.order, u ∈ s.activeUnits
  linked : ∀ u ∈ s.activeUnits, u.native = false

/-- `t` is what became of `s`. -/
structure Continues (s t : State) : Prop where
  units : t.units = s.units
  order : s.order <+: t.order
  active : ∀ u ∈ s.activeUnits, u ∈ t.activeUnits
  sink : t.unresolved.isSome = s.unresolved.isSome
  unresolved : ∀ name ∈ s.unresolved.getD ∅, name ∈ t.unresolved.getD ∅
  extdefs : ∀ name ∈ t.extdefs, name ∈ s.extdefs
  demoted : ∀ name ∈ s.extdefs, name ∉ t.extdefs → ∃ u ∈ t.activeUnits, t.owner? name = some u
  includes : ∀ name ∈ t.includes, name ∈ s.includes

theorem Continues.refl (s : State) : s.Continues s where
  units := rfl
  order := List.prefix_refl _
  active _ h := h
  sink := rfl
  unresolved _ h := h
  extdefs _ h := h
  demoted _ h hn := absurd h hn
  includes _ h := h

theorem Continues.trans (h : s.Continues t) (h' : t.Continues r) : s.Continues r where
  units := h'.units.trans h.units
  order := h.order.trans h'.order
  active u hu := h'.active u (h.active u hu)
  sink := h'.sink.trans h.sink
  unresolved name hname := h'.unresolved name (h.unresolved name hname)
  extdefs name hname := h.extdefs name (h'.extdefs name hname)
  demoted name hs hr := by
    by_cases ht : name ∈ t.extdefs
    · exact h'.demoted name ht hr
    · obtain ⟨u, hu, howner⟩ := h.demoted name hs ht
      exact ⟨u, h'.active u hu, (owner?_congr h'.units name).trans howner⟩
  includes name hname := h.includes name (h'.includes name hname)

theorem Tally.continues (h : s.Tally policy M t) (hs : s.units.Nodup) (horder : s.order <+: t.order) :
    s.Continues t := by
  have ht : t.units.Nodup := h.agrees.units ▸ hs
  refine ⟨h.agrees.units, horder, ?_, h.agrees.unresolved, ?_, ?_, ?_, ?_⟩
  · intro u hu
    rw [mem_activeUnits hs] at hu
    rw [mem_activeUnits ht, h.active]
    exact .inl hu
  · intro name hname
    exact (h.unresolved name).2 (.inl hname)
  · intro name hname
    exact ((h.extdefs name).1 hname).1
  · intro name hname hlost
    rw [h.extdefs, not_and, not_not] at hlost
    obtain ⟨-, hM, u, hu⟩ := hlost hname
    refine ⟨u, ?_, (owner?_congr h.agrees.units name).trans hu.owner⟩
    rw [mem_activeUnits ht, h.active]
    exact .inr ⟨name, hM, hu⟩
  · intro name hname
    exact ((h.includes name).1 hname).1

namespace Sound

theorem nodup_units (hs : s.Sound) : s.units.Nodup := hs.names.of_map _

theorem steady (hs : s.Sound) : Steady s ⟨s, [], []⟩ := by
  refine ⟨(List.append_nil _).symm, ?_, ?_⟩
  · rw [hs.idle]
    exact hs.nodup
  · rintro u (hu | hu | hu)
    · exact (mem_activeUnits hs.nodup_units).1 (hs.active u hu)
    · rw [hs.idle] at hu
      cases hu
    · cases hu

theorem mem_order_iff (hs : s.Sound) : u ∈ s.order ↔ u ∈ s.units ∧ s.isVisited u.name := by
  -- Names tell units apart, so the units visited can be told by theirs.
  have hunits : ∀ v ∈ s.order, v ∈ s.units := fun v hv ↦ mem_units_of_active (hs.active v hv)
  constructor
  · intro hu
    exact ⟨hunits u hu, List.any_eq_true.2 ⟨u, hu, by simp⟩⟩
  · rintro ⟨hu, hvisited⟩
    obtain ⟨v, hv, hname⟩ := List.any_eq_true.1 hvisited
    have huv : v = u := List.inj_on_of_nodup_map hs.names (hunits v hv) hu (by simpa using hname)
    exact huv ▸ hv

theorem of_tally (hs : s.Sound) (h : s.Tally policy M t) (hidle : t.chain = [])
    (hnodup : t.order.Nodup) (hactive : ∀ u ∈ t.order, (t.cursor? u).isSome) : t.Sound := by
  have ht : t.units.Nodup := h.agrees.units ▸ hs.nodup_units
  refine ⟨h.agrees.units ▸ hs.names, hidle, hnodup, ?_, ?_⟩
  · intro u hu
    exact (mem_activeUnits ht).2 (hactive u hu)
  · intro u hu
    rw [mem_activeUnits ht, h.active, ← mem_activeUnits hs.nodup_units] at hu
    rcases hu with hu | ⟨name, -, hu⟩
    · exact hs.linked u hu
    · exact hu.not_native

theorem resolve (hs : s.Sound) (policy : Policy) (name : Symbol) :
    (s.resolve policy name).2.Sound := by
  have htally := Tally.resolve policy s name
  refine hs.of_tally htally ?_ ?_ ?_
  · rw [chain_resolve, hs.idle]
  · rw [order_resolve]
    exact hs.nodup
  · intro u hu
    rw [order_resolve] at hu
    exact (htally.active u).2 (.inl ((mem_activeUnits hs.nodup_units).1 (hs.active u hu)))

theorem traverse (hs : s.Sound) (policy : Policy) (start : Option (List Symbol)) :
    (s.traverse policy start).state.Sound ∧
      (s.traverse policy start).state.order = s.order ++ (s.traverse policy start).visits := by
  -- The walk before a fault is sound, and a fault adds nothing to the visits.
  obtain ⟨M, htally⟩ := exists_tally hs.idle policy start
  cases h : (s.traverse policy start).error with
  | none =>
    obtain ⟨w, hmoves, hchain, -, heq⟩ := moves_of_ok h
    have hw := hs.steady.moves hmoves
    rw [heq] at htally ⊢
    exact ⟨hs.of_tally htally hchain hw.nodup_order fun u hu ↦ hw.active u (.inl hu), hw.order⟩
  | some e =>
    obtain ⟨w, w', hmoves, hfault, heq⟩ := moves_of_error hs.idle h
    have hw := hs.steady.moves hmoves
    obtain ⟨N, hN⟩ := hfault.tally
    rw [heq] at htally ⊢
    refine ⟨hs.of_tally htally rfl ?_ ?_, ?_⟩
    · exact hfault.order ▸ hw.nodup_order
    · intro u hu
      exact (hN.active u).2 (.inl (hw.active u (.inl (hfault.order ▸ hu))))
    · exact hfault.order.trans (visits_of_fault hfault ▸ hw.order)

end Sound

theorem sound_of_build {units : List LinkUnit} {extdefs includes : SymbolSet}
    {sink : Option SymbolSet} (h : build units extdefs includes sink = .ok s) : s.Sound := by
  have hs := fresh_of_build h
  have hnodup : s.units.Nodup := (nodup_names_of_build h).of_map _
  refine ⟨nodup_names_of_build h, hs.chain, ?_, ?_, ?_⟩
  · rw [hs.order]
    exact .nil
  · intro u hu
    rw [hs.order] at hu
    cases hu
  · intro u hu
    rw [mem_activeUnits hnodup, hs.inactive] at hu
    cases hu

theorem Fresh.grounded (hs : s.Fresh) : s.Grounded := by
  intro u k hk
  cases (hs.inactive u).symm.trans hk

theorem context?_map_unit (s : State) (name : String) :
    (s.context? name).map (·.unit) = s.units.find? (·.name = name) := by
  rw [context?, units, List.find?_map]
  rfl

end State

theorem Session.sound {accepted : Outcome → Prop} {s₀ s : State} {seen : List LinkUnit}
    (h₀ : s₀.Sound) (h : Session accepted s₀ seen s) :
    s.Sound ∧ s.order = s₀.order ++ seen ∧ s₀.Continues s := by
  induction h with
  | start => exact ⟨h₀, (List.append_nil _).symm, .refl s₀⟩
  | @resolve seen s policy name _ ih =>
    obtain ⟨hs, horder, hcont⟩ := ih
    have htally := State.Tally.resolve policy s name
    refine ⟨hs.resolve policy name, ?_, hcont.trans (htally.continues hs.nodup_units ?_)⟩
    · rw [State.order_resolve, horder]
    · simp [State.order_resolve]
  | @traverse seen s policy start _ _ ih =>
    obtain ⟨hs, horder, hcont⟩ := ih
    obtain ⟨hs', horder'⟩ := hs.traverse policy start
    obtain ⟨M, htally⟩ := State.exists_tally hs.idle policy start
    refine ⟨hs', ?_, hcont.trans (htally.continues hs.nodup_units ?_)⟩
    · rw [horder', horder, List.append_assoc]
    · rw [horder']
      exact List.prefix_append _ _

theorem Session.grounded {accepted : Outcome → Prop} {s₀ s : State} {seen : List LinkUnit} (h₀ : s₀.Sound)
    (hground : s₀.Grounded) (h : Session accepted s₀ seen s) : s.Grounded := by
  induction h with
  | start => exact hground
  | resolve policy name _ ih => exact ih.resolve policy name
  | traverse policy start hs _ ih => exact ih.traverse (hs.sound h₀).1.idle policy start

/-- Whatever is called on a state that was built, and whether or not calls fail, it stays sound, its visits are those
of all calls together, its tables stay as they were built, and it continues every earlier state. -/
theorem sound_through_all_calls {units seen later : List LinkUnit} {extdefs includes : SymbolSet}
    {sink : Option SymbolSet} {s₀ s t : State}
    (hbuild : State.build units extdefs includes sink = .ok s₀)
    (hs : Session (fun _ ↦ True) s₀ seen s) (ht : Session (fun _ ↦ True) s later t) :
    t.Sound ∧ (∀ u, u ∈ t.order ↔ u ∈ t.units ∧ t.isVisited u.name) ∧ t.order = seen ++ later ∧
      (t.units = units ∧ (∀ d, t.owner? d = s₀.owner? d) ∧
        ∀ name, (t.context? name).map (·.unit) = (s₀.context? name).map (·.unit)) ∧
      s.Continues t := by
  obtain ⟨hsound, horder, hcont⟩ := hs.sound (State.sound_of_build hbuild)
  obtain ⟨hsound', horder', hcont'⟩ := ht.sound hsound
  have hunits := (hcont.trans hcont').units
  refine ⟨hsound', fun u ↦ hsound'.mem_order_iff, ?_, ⟨?_, ?_, ?_⟩, hcont'⟩
  · rw [horder', horder, (State.fresh_of_build hbuild).order, List.nil_append]
  · rw [hunits, State.units_of_build hbuild]
  · exact State.owner?_congr hunits
  · intro name
    rw [State.context?_map_unit, State.context?_map_unit, hunits]

namespace Knot

def tie : LinkUnit := { name := "tie", defs := ["tie"], pres := ["end", "tie"] }

def loose : LinkUnit := { name := "end", defs := ["end"] }

def fresh : State := { contexts := [tie, loose].map ({ unit := · }) }

def tangled : State := (fresh.traverse {} (some ["tie"])).state

def passed : State := (tangled.traverse {} (some ["tie"])).state

theorem sound_after_cycle :
    State.build [tie, loose] ∅ ∅ none = .ok fresh ∧
      (fresh.traverse {} (some ["tie"])).error = some (.circularReference "tie" ["tie", "tie"]) ∧
      Session (fun _ ↦ True) fresh [loose] tangled ∧ Session (fun _ ↦ True) tangled [tie] passed ∧
      passed.Sound ∧ passed.order = [loose, tie] ∧ tangled.Continues passed := by
  have hbuild : State.build [tie, loose] ∅ ∅ none = .ok fresh := rfl
  have hfirst : (fresh.traverse {} (some ["tie"])).visits = [loose] := by decide +kernel
  have hsecond : (tangled.traverse {} (some ["tie"])).visits = [tie] := by decide +kernel
  have hs : Session (fun _ ↦ True) fresh ([] ++ _) tangled :=
    .traverse {} (some ["tie"]) .start trivial
  have ht : Session (fun _ ↦ True) tangled ([] ++ _) passed :=
    .traverse {} (some ["tie"]) .start trivial
  rw [hfirst] at hs
  rw [hsecond] at ht
  obtain ⟨hsound, -, horder, -, hcont⟩ := sound_through_all_calls hbuild hs ht
  exact ⟨hbuild, by decide +kernel, hs, ht, hsound, horder, hcont⟩

end Knot

end LinkOrder
