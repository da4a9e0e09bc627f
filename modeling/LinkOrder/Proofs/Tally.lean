import LinkOrder.Proofs.Traversal
import Mathlib.Data.List.Nodup
import Mathlib.Tactic.Tauto

namespace LinkOrder

open Relation

namespace Cursor

variable {M N : Symbol → Prop} {k k' k'' : Cursor}

/-- Whatever went off the cursor is in `N`. -/
structure Drops (N : Symbol → Prop) (k k' : Cursor) : Prop where
  pres : ∀ p ∈ k.pres, p ∈ k'.pres ∨ N p
  deps : ∀ d ∈ k.deps, d ∈ k'.deps ∨ N d

namespace Drops

theorem refl (N : Symbol → Prop) (k : Cursor) : k.Drops N k := ⟨fun _ ↦ .inl, fun _ ↦ .inl⟩

theorem trans (h : k.Drops M k') (h' : k'.Drops N k'') :
    k.Drops (fun name ↦ M name ∨ N name) k'' := by
  constructor
  · intro p hp
    rcases h.pres p hp with hp | hp
    · exact (h'.pres p hp).imp_right .inr
    · exact .inr (.inl hp)
  · intro d hd
    rcases h.deps d hd with hd | hd
    · exact (h'.deps d hd).imp_right .inr
    · exact .inr (.inl hd)

theorem pre (p : Symbol) (ps ds : List Symbol) : Drops (· = p) ⟨p :: ps, ds⟩ ⟨ps, ds⟩ :=
  ⟨fun _ hx ↦ (List.mem_cons.1 hx).symm, fun _ ↦ .inl⟩

theorem dep (d : Symbol) (ps ds : List Symbol) : Drops (· = d) ⟨ps, d :: ds⟩ ⟨ps, ds⟩ :=
  ⟨fun _ ↦ .inl, fun _ hx ↦ (List.mem_cons.1 hx).symm⟩

end Drops

end Cursor

namespace State

variable {s t r : State} {policy : Policy} {name n : Symbol} {u v : LinkUnit} {M N : Symbol → Prop}

theorem mem_activeUnits (h : s.units.Nodup) : u ∈ s.activeUnits ↔ (s.cursor? u).isSome := by
  constructor
  · intro hu
    obtain ⟨c, hc, rfl⟩ := List.mem_map.1 hu
    obtain ⟨hc, hactive⟩ := List.mem_filter.1 hc
    obtain ⟨b, hb, hunit⟩ := exists_context_of_mem (List.mem_map_of_mem hc)
    have hbc : b = c := List.inj_on_of_nodup_map h (List.mem_of_find?_eq_some hb) hc hunit
    rw [cursor?, hb, hbc]
    exact hactive
  · intro hu
    obtain ⟨k, hk⟩ := Option.isSome_iff_exists.1 hu
    obtain ⟨c, hc, hcursor⟩ := Option.bind_eq_some_iff.1 hk
    have hunit : c.unit = u := by simpa using List.find?_some hc
    refine List.mem_map.2 ⟨c, List.mem_filter.2 ⟨List.mem_of_find?_eq_some hc, ?_⟩, hunit⟩
    simp [Context.isActive, hcursor]

theorem mem_units_of_active (h : u ∈ s.activeUnits) : u ∈ s.units := by
  obtain ⟨c, hc, rfl⟩ := List.mem_map.1 h
  exact List.mem_map_of_mem (List.mem_filter.1 hc).1

@[simp] theorem record_extdefs : (s.record name).extdefs = s.extdefs := rfl

@[simp] theorem record_includes : (s.record name).includes = s.includes := rfl

@[simp] theorem cursor?_record : (s.record name).cursor? u = s.cursor? u := rfl

@[simp] theorem reach_unresolved : (s.reach policy name).unresolved = s.unresolved := rfl

@[simp] theorem reach_extdefs : (s.reach policy name).extdefs = s.extdefs := rfl

@[simp] theorem cursor?_reach : (s.reach policy name).cursor? u = s.cursor? u := rfl

@[simp] theorem link_unresolved : (s.link policy name u).unresolved = s.unresolved := rfl

theorem mem_record : n ∈ (s.record name).unresolved.getD ∅ ↔
    n ∈ s.unresolved.getD ∅ ∨ s.unresolved.isSome ∧ n = name := by
  unfold record
  cases s.unresolved <;> simp [or_comm]

theorem mem_reach : n ∈ (s.reach policy name).includes ↔
    n ∈ s.includes ∧ ¬(policy.exportIncludes = false ∧ n = name) := by
  unfold reach
  cases policy.exportIncludes <;> simp

theorem mem_link : n ∈ (s.link policy name u).extdefs ↔
    n ∈ s.extdefs ∧ ¬(policy.allowExternal = false ∧ n = name) := by
  unfold link update
  cases policy.allowExternal <;> simp

theorem isSome_cursor?_link (hu : u ∈ s.units) :
    ((s.link policy name u).cursor? v).isSome ↔ (s.cursor? v).isSome ∨ v = u := by
  rw [cursor?_link hu]
  split
  · next h => simp [h]
  · next h => simp [h]

/-- `t` is what becomes of `s` once exactly the symbols in `M` were resolved. -/
structure Tally (policy : Policy) (s : State) (M : Symbol → Prop) (t : State) : Prop where
  agrees : s.Agrees policy t
  unresolved : ∀ name, name ∈ t.unresolved.getD ∅ ↔ name ∈ s.unresolved.getD ∅ ∨
    s.unresolved.isSome ∧ M name ∧ ∀ u, ¬s.Resolves policy name u
  extdefs : ∀ name, name ∈ t.extdefs ↔ name ∈ s.extdefs ∧
    ¬(policy.allowExternal = false ∧ M name ∧ ∃ u, s.Resolves policy name u)
  includes : ∀ name, name ∈ t.includes ↔ name ∈ s.includes ∧
    ¬(policy.exportIncludes = false ∧ M name ∧ ¬(policy.allowExternal ∧ name ∈ s.extdefs))
  active : ∀ u, (t.cursor? u).isSome ↔ (s.cursor? u).isSome ∨
    ∃ name, M name ∧ s.Resolves policy name u

namespace Tally

theorem refl (policy : Policy) (s : State) : s.Tally policy (fun _ ↦ False) s := by
  refine ⟨.refl policy s, ?_, ?_, ?_, ?_⟩ <;> simp

theorem trans (h : s.Tally policy M t) (h' : t.Tally policy N r) :
    s.Tally policy (fun name ↦ M name ∨ N name) r := by
  have hres : ∀ name u, t.Resolves policy name u ↔ s.Resolves policy name u :=
    fun _ _ ↦ h.agrees.resolves_iff
  refine ⟨h.agrees.trans h'.agrees, ?_, ?_, ?_, ?_⟩
  · intro name
    rw [h'.unresolved, h.unresolved, h.agrees.unresolved]
    simp only [hres]
    tauto
  · intro name
    rw [h'.extdefs, h.extdefs]
    simp only [hres]
    tauto
  · intro name
    rw [h'.includes, h.includes, h.agrees.external_iff]
    tauto
  · intro u
    rw [h'.active, h.active]
    simp only [hres, or_and_right, exists_or, or_assoc]

theorem resolve (policy : Policy) (s : State) (name : Symbol) :
    s.Tally policy (· = name) (s.resolve policy name).2 := by
  have hagree := Agrees.resolve policy s name
  -- The symbol is left to others, or it has no owner to link, or its owner is linked.
  rcases s.resolve_cases policy name with ⟨he, heq⟩ | ⟨he, hr, heq⟩ | ⟨u, hu, heq⟩ <;>
    rw [heq] at hagree ⊢
  · have hr : ∀ u, ¬s.Resolves policy name u := fun u hu ↦ hu.not_external he
    refine ⟨hagree, fun n ↦ mem_record.trans ?_, fun n ↦ ?_, fun n ↦ ?_, fun u ↦ ?_⟩ <;>
      grind [record_extdefs, record_includes, cursor?_record]
  · refine ⟨hagree, fun n ↦ mem_record.trans ?_, fun n ↦ ?_, fun n ↦ mem_reach.trans ?_,
      fun u ↦ ?_⟩ <;>
      grind [record_extdefs, reach_unresolved, reach_extdefs, cursor?_record, cursor?_reach]
  · have hmem : u ∈ (s.reach policy name).units := mem_units_of_owner? hu.owner
    have hunique : ∀ v, s.Resolves policy name v → v = u := fun v hv ↦ hv.unique hu
    have he := hu.not_external
    refine ⟨hagree, fun n ↦ ?_, fun n ↦ mem_link.trans ?_, fun n ↦ mem_reach.trans ?_,
      fun v ↦ (isSome_cursor?_link hmem).trans ?_⟩ <;>
      grind [link_unresolved, reach_unresolved, reach_extdefs, cursor?_reach]

theorem update {f : Context → Context} {g : Cursor → Cursor} (hf : ∀ c, (f c).unit = c.unit)
    (hg : ∀ c, (f c).cursor = c.cursor.map g) (policy : Policy) (s : State) (u : LinkUnit) :
    s.Tally policy (fun _ ↦ False) (s.update u f) := by
  have h := refl policy s
  refine ⟨.update hf policy s u, h.unresolved, h.extdefs, h.includes, fun v ↦ ?_⟩
  rw [cursor?_update hf hg]
  split <;> simp

theorem resolve_after (h : s.Tally policy (fun _ ↦ False) t) (name : Symbol) :
    s.Tally policy (· = name) (t.resolve policy name).2 := by
  simpa using h.trans (resolve policy t name)

theorem with_trail (h : s.Tally policy M t) (chain order : List LinkUnit) :
    s.Tally policy M { t with chain, order } :=
  ⟨⟨h.agrees.units, h.agrees.extdefs, h.agrees.unresolved⟩, h.unresolved, h.extdefs, h.includes,
    h.active⟩

theorem followPre (policy : Policy) (s : State) (u : LinkUnit) (p : Symbol) :
    s.Tally policy (· = p) (s.followPre policy u p) :=
  (update Context.dropPre_unit Context.dropPre_cursor policy s u).resolve_after p

theorem followDep (policy : Policy) (s : State) (u : LinkUnit) (d : Symbol) :
    s.Tally policy (· = d) ((s.update u Context.dropDep).resolve policy d).2 :=
  (update Context.dropDep_unit Context.dropDep_cursor policy s u).resolve_after d

end Tally

end State

namespace Walk

variable {policy : Policy} {seeds : List Symbol} {w w' : Walk} {u v : LinkUnit} {name p d : Symbol}
  {e : LinkError}

/-- Between `w` and `w'` the symbols in `N` were resolved. Each is a seed or comes off a cursor, nothing else
comes off one, and only where they lead is new ground covered. -/
structure Follows (policy : Policy) (seeds : List Symbol) (N : Symbol → Prop) (w w' : Walk) :
    Prop where
  tally : w.state.Tally policy N w'.state
  source : ∀ name, N name → name ∈ seeds ∨
    ∃ u k, w.Covered u ∧ w.state.cursor? u = some k ∧ (name ∈ k.pres ∨ name ∈ k.deps)
  cursor : ∀ u k, w.state.cursor? u = some k → ∃ k', w'.state.cursor? u = some k' ∧ k.Drops N k'
  covered : ∀ u, w'.Covered u → w.Covered u ∨ ∃ name, N name ∧ w.state.Resolves policy name u

theorem follows_await (hname : name ∈ seeds) :
    Follows policy seeds (· = name) w (w.await policy name) := by
  refine ⟨.resolve policy w.state name, ?_, ?_, ?_⟩
  · rintro _ rfl
    exact .inl hname
  · intro u k hk
    exact ⟨k, State.cursor?_resolve_of_some hk, .refl _ k⟩
  · intro u hu
    exact (covered_await.1 hu).imp_right fun h ↦ ⟨name, rfl, h⟩

theorem follows_dep (hu : u ∈ w.state.order) (hd : w.state.dep? u = some d) :
    Follows policy seeds (· = d) w ((w.dropDep u).await policy d) := by
  obtain ⟨ps, ds, hk⟩ := State.exists_cursor_of_dep? hd
  refine ⟨.followDep policy w.state u d, ?_, ?_, ?_⟩
  · rintro _ rfl
    exact .inr ⟨u, _, .inl hu, hk, .inr List.mem_cons_self⟩
  · intro v k' hk'
    by_cases hvu : v = u
    · subst hvu
      cases hk.symm.trans hk'
      exact ⟨_, State.cursor?_resolve_of_some (State.cursor?_dropDep hk), .dep d ps ds⟩
    · have hsame : (w.dropDep u).state.cursor? v = some k' :=
        (State.cursor?_dropDep_of_ne hvu).trans hk'
      exact ⟨k', State.cursor?_resolve_of_some hsame, .refl _ k'⟩
  · intro v hv
    have hagree := State.Agrees.update Context.dropDep_unit policy w.state u
    exact (covered_await.1 hv).imp_right fun h ↦ ⟨d, rfl, hagree.resolves_iff.1 h⟩

theorem follows_pre (new : List LinkUnit) (hu : u ∈ w.state.chain) (hp : w.state.pre? u = some p)
    (hnew : ∀ v ∈ new, w.state.Resolves policy p v) :
    Follows policy seeds (· = p) w
      { w with state := { w.state.followPre policy u p with chain := new ++ w.state.chain } } := by
  obtain ⟨ps, ds, hk⟩ := State.exists_cursor_of_pre? hp
  refine ⟨(State.Tally.followPre policy w.state u p).with_trail _ _, ?_, ?_, ?_⟩
  · rintro _ rfl
    exact .inr ⟨u, _, .inr (.inl hu), hk, .inl List.mem_cons_self⟩
  · intro v k' hk'
    by_cases hvu : v = u
    · subst hvu
      cases hk.symm.trans hk'
      exact ⟨_, State.cursor?_followPre hk, .pre p ps ds⟩
    · exact ⟨k', State.cursor?_followPre_of_some hvu hk', .refl _ k'⟩
  · rintro v (hv | hv | hv)
    · exact .inl (.inl (w.state.order_followPre policy u p ▸ hv))
    · rcases List.mem_append.1 hv with hv | hv
      · exact .inr ⟨p, rfl, hnew v hv⟩
      · exact .inl (.inr (.inl hv))
    · exact .inl (.inr (.inr hv))

theorem follows_nothing (w : Walk) (chain order queue visits : List LinkUnit)
    (h : ∀ u, Covered { w with state := { w.state with chain, order }, queue, visits } u →
      w.Covered u) :
    Follows policy seeds (fun _ ↦ False) w
      { w with state := { w.state with chain, order }, queue, visits } :=
  ⟨(State.Tally.refl policy w.state).with_trail _ _, fun _ h ↦ h.elim,
    fun _ k hk ↦ ⟨k, hk, .refl _ k⟩, fun u hu ↦ .inl (h u hu)⟩

theorem Move.follows (h : Move policy seeds w w') : ∃ N, Follows policy seeds N w w' := by
  cases h with
  | seed hname => exact ⟨_, follows_await hname⟩
  | dep hu hd => exact ⟨_, follows_dep hu hd⟩
  | @pass u p rest hc hp =>
    have hu : u ∈ w.state.chain := hc ▸ List.mem_cons_self
    have hf : Follows policy seeds (· = p) w _ :=
      follows_pre [] hu hp fun v hv ↦ absurd hv List.not_mem_nil
    rw [List.nil_append, ← w.state.chain_followPre policy u p] at hf
    exact ⟨_, hf⟩
  | @descend u v p rest hc hp hv =>
    exact ⟨_, follows_pre [v] (hc ▸ List.mem_cons_self) hp fun x hx ↦ List.mem_singleton.1 hx ▸ hv⟩
  | visit hc => exact ⟨_, follows_nothing w _ _ _ _ fun v hv ↦ (covered_visit hc).1 hv⟩
  | @skip u rest hc hq =>
    refine ⟨_, follows_nothing w _ _ _ _ fun v hv ↦ ?_⟩
    exact hv.imp_right (.imp_right fun h ↦ hq ▸ List.mem_cons_of_mem _ h)
  | @begin u rest hc hq =>
    refine ⟨_, follows_nothing w _ _ _ _ fun v hv ↦ ?_⟩
    rcases hv with hv | hv | hv
    · exact .inl hv
    · exact .inr (.inr (by rw [hq, List.mem_singleton.1 hv]; exact List.mem_cons_self))
    · exact .inr (.inr (hq ▸ List.mem_cons_of_mem _ hv))

theorem Moves.tally (h : Moves policy seeds w w') : ∃ N, w.state.Tally policy N w'.state := by
  induction h with
  | refl => exact ⟨_, .refl policy w.state⟩
  | tail _ hmove ih =>
    obtain ⟨M, hM⟩ := ih
    obtain ⟨N, hN⟩ := hmove.follows
    exact ⟨_, hM.trans hN.tally⟩

theorem Fault.tally (h : Fault policy seeds w e w') : ∃ N, w.state.Tally policy N w'.state := by
  cases h with
  | seed => exact ⟨_, .resolve policy w.state _⟩
  | dep => exact ⟨_, .followDep policy w.state _ _⟩
  | pre => exact ⟨_, .followPre policy w.state _ _⟩
  | cycle => exact ⟨_, .followPre policy w.state _ _⟩

end Walk

theorem State.exists_tally {s : State} (hs : s.chain = []) (policy : Policy)
    (start : Option (List Symbol)) :
    ∃ M, s.Tally policy M (s.traverse policy start).state := by
  cases h : (s.traverse policy start).error with
  | none =>
    obtain ⟨w, hmoves, -, -, heq⟩ := moves_of_ok h
    rw [heq]
    exact hmoves.tally
  | some e =>
    obtain ⟨w, w', hmoves, hfault, heq⟩ := moves_of_error hs h
    obtain ⟨M, hM⟩ := hmoves.tally
    obtain ⟨N, hN⟩ := hfault.tally
    rw [heq]
    exact ⟨_, (hM.trans hN).with_trail _ _⟩

end LinkOrder
