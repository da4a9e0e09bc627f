import LinkOrder.Proofs.Idempotence
import Mathlib.Logic.Function.Conjugate

namespace LinkOrder

open Function (Commute)

namespace SymbolSet

variable (s : SymbolSet) (a b : Symbol)

theorem insert_comm : (s.insert a).insert b = (s.insert b).insert a := by
  apply ext
  intro c
  simp only [mem_insert]
  exact or_left_comm

theorem erase_comm : (s.erase a).erase b = (s.erase b).erase a := by
  apply ext
  intro c
  simp only [mem_erase]
  exact and_right_comm

end SymbolSet

theorem Context.activate_activate (policy : Policy) (c : Context) :
    (c.activate policy).activate policy = c.activate policy := by
  obtain ⟨u, k⟩ := c
  cases k <;> rfl

namespace State

variable (s : State) (policy : Policy) (a b : Symbol) (u v : LinkUnit)

theorem record_comm : (s.record a).record b = (s.record b).record a := by
  have hsame : (s.unresolved.map (·.insert a)).map (·.insert b) =
      (s.unresolved.map (·.insert b)).map (·.insert a) := by
    cases s.unresolved with
    | none => rfl
    | some set => exact congrArg some (set.insert_comm a b)
  simp only [record, hsame]

theorem record_record : (s.record a).record a = s.record a := by
  apply record_eq_self
  intro hsome
  cases hs : s.unresolved with
  | none => simp [record, hs] at hsome
  | some set =>
    change a ∈ (s.unresolved.map (·.insert a)).getD ∅
    rw [hs]
    exact SymbolSet.mem_insert.2 (.inl rfl)

theorem reach_comm : (s.reach policy a).reach policy b = (s.reach policy b).reach policy a := by
  cases hp : policy.exportIncludes with
  | true => simp only [reach, hp, if_true]
  | false => simp only [reach, hp, Bool.false_eq_true, if_false, s.includes.erase_comm a b]

theorem reach_reach : (s.reach policy a).reach policy a = s.reach policy a := by
  apply reach_eq_self
  intro hp
  simp [reach, hp, SymbolSet.mem_erase]

theorem update_comm {f : Context → Context} {u v : LinkUnit} (hf : ∀ c, (f c).unit = c.unit) (h : u ≠ v) :
    (s.update u f).update v f = (s.update v f).update u f := by
  have hsame : (s.contexts.map fun c ↦ if c.unit = u then f c else c).map (fun c ↦ if c.unit = v then f c else c) =
      (s.contexts.map fun c ↦ if c.unit = v then f c else c).map fun c ↦ if c.unit = u then f c else c := by
    rw [List.map_map, List.map_map]
    refine List.map_congr_left fun c _ ↦ ?_
    simp only [Function.comp_apply]
    by_cases hu : c.unit = u
    · have hv : c.unit ≠ v := fun hv ↦ h (hu.symm.trans hv)
      simp only [if_pos hu, if_neg hv, hf]
    · by_cases hv : c.unit = v
      · simp only [if_neg hu, if_pos hv, hf]
      · simp only [if_neg hu, if_neg hv]
  simp only [update, hsame]

theorem activate_activate :
    (s.update u (Context.activate policy)).update u (Context.activate policy) =
      s.update u (Context.activate policy) := by
  simp only [update, List.map_map, State.mk.injEq, and_true]
  refine List.map_congr_left fun c _ ↦ ?_
  simp only [Function.comp_apply]
  by_cases hu : c.unit = u
  · simp only [if_pos hu, Context.activate_unit, Context.activate_activate]
  · simp only [if_neg hu]

theorem activate_comm :
    (s.update u (Context.activate policy)).update v (Context.activate policy) =
      (s.update v (Context.activate policy)).update u (Context.activate policy) := by
  by_cases h : u = v
  · rw [h]
  · exact s.update_comm (Context.activate_unit policy) h

def withdraw (s : State) (policy : Policy) (name : Symbol) : State :=
  { s with extdefs := if policy.allowExternal then s.extdefs else s.extdefs.erase name }

theorem withdraw_comm : (s.withdraw policy a).withdraw policy b = (s.withdraw policy b).withdraw policy a := by
  cases hp : policy.allowExternal with
  | true => simp only [withdraw, hp, if_true]
  | false => simp only [withdraw, hp, Bool.false_eq_true, if_false, s.extdefs.erase_comm a b]

theorem withdraw_withdraw : (s.withdraw policy a).withdraw policy a = s.withdraw policy a := by
  cases hp : policy.allowExternal with
  | true => simp only [withdraw, hp, if_true]
  | false =>
    have hgone : a ∉ s.extdefs.erase a := fun h ↦ (SymbolSet.mem_erase.1 h).2 rfl
    simp only [withdraw, hp, Bool.false_eq_true, if_false, SymbolSet.erase_eq_self hgone]

/-- The parts a resolution is made of. None of them reads what another one writes. -/
inductive Effect (policy : Policy) : (State → State) → Prop
  | record (name : Symbol) : Effect policy (State.record · name)
  | reach (name : Symbol) : Effect policy (State.reach · policy name)
  | withdraw (name : Symbol) : Effect policy (State.withdraw · policy name)
  | activate (u : LinkUnit) : Effect policy (State.update · u (Context.activate policy))
  | comp {f g : State → State} : Effect policy f → Effect policy g → Effect policy (f ∘ g)

namespace Effect

variable {policy : Policy} {f g : State → State}

theorem commute (hf : Effect policy f) (hg : Effect policy g) : Commute f g := by
  induction hf with
  | comp _ _ ihf ihg => exact ihf.comp_left ihg
  | record a =>
    induction hg with
    | record b => exact fun s ↦ s.record_comm b a
    | comp _ _ ihf ihg => exact ihf.comp_right ihg
    | _ => exact fun s ↦ rfl
  | reach a =>
    induction hg with
    | reach b => exact fun s ↦ s.reach_comm policy b a
    | comp _ _ ihf ihg => exact ihf.comp_right ihg
    | _ => exact fun s ↦ rfl
  | withdraw a =>
    induction hg with
    | withdraw b => exact fun s ↦ s.withdraw_comm policy b a
    | comp _ _ ihf ihg => exact ihf.comp_right ihg
    | _ => exact fun s ↦ rfl
  | activate u =>
    induction hg with
    | activate v => exact fun s ↦ s.activate_comm policy v u
    | comp _ _ ihf ihg => exact ihf.comp_right ihg
    | _ => exact fun s ↦ rfl

theorem idem (hf : Effect policy f) (s : State) : f (f s) = f s := by
  induction hf generalizing s with
  | record a => exact s.record_record a
  | reach a => exact s.reach_reach policy a
  | withdraw a => exact s.withdraw_withdraw policy a
  | activate u => exact s.activate_activate policy u
  | @comp f g hf hg ihf ihg =>
    calc f (g (f (g s))) = f (f (g (g s))) := by rw [(hf.commute hg).eq (g s)]
      _ = f (g s) := by rw [ihf, ihg]

theorem link (policy : Policy) (name : Symbol) (u : LinkUnit) : Effect policy (State.link · policy name u) :=
  (Effect.activate u).comp (.withdraw name)

end Effect

/-- Among states that agree, a symbol has one answer, and resolving it has one effect. -/
theorem exists_effect :
    ∃ r f, Effect policy f ∧ ∀ t, s.Agrees policy t → t.resolve policy a = (r, f t) := by
  by_cases he : policy.allowExternal ∧ a ∈ s.extdefs
  · refine ⟨.deferred, _, .record a, fun t h ↦ ?_⟩
    rw [resolve, if_pos ((h.external_iff a).2 he)]
  · cases ho : s.owner? a with
    | none =>
      refine ⟨if s.unresolved.isSome then .deferred else .undefined, _, (Effect.record a).comp (.reach a), ?_⟩
      intro t h
      rw [resolve, if_neg (mt (h.external_iff a).1 he), owner?_congr h.units, ho, h.unresolved]
      rfl
    | some u =>
      cases hn : u.native with
      | true =>
        refine ⟨.deferred, _, (Effect.record a).comp (.reach a), fun t h ↦ ?_⟩
        simp [resolve, mt (h.external_iff a).1 he, owner?_congr h.units, ho, hn]
      | false =>
        refine ⟨.resolved u, _, (Effect.link policy a u).comp (.reach a), fun t h ↦ ?_⟩
        exact resolve_of_resolves (h.resolves_iff.2 ⟨he, ho, hn⟩)

end State

/-- Resolving a symbol once more gives the same answer and changes nothing. Two symbols have the same answers in either
order, and leave the same state. -/
theorem resolve_idempotent_commutative (s : State) (policy : Policy) (a b : Symbol) :
    (s.resolve policy a).2.resolve policy a = s.resolve policy a ∧
      ((s.resolve policy b).2.resolve policy a).1 = (s.resolve policy a).1 ∧
      ((s.resolve policy a).2.resolve policy b).1 = (s.resolve policy b).1 ∧
      ((s.resolve policy a).2.resolve policy b).2 = ((s.resolve policy b).2.resolve policy a).2 := by
  obtain ⟨r, f, hf, ha⟩ := s.exists_effect policy a
  obtain ⟨q, g, hg, hb⟩ := s.exists_effect policy b
  have hthen_a (name : Symbol) := ha _ (.resolve policy s name)
  have hthen_b := hb _ (.resolve policy s a)
  have hfirst_a := ha s (.refl policy s)
  have hfirst_b := hb s (.refl policy s)
  refine ⟨?_, ?_, ?_, ?_⟩
  · rw [hthen_a a, hfirst_a, hf.idem]
  · rw [hthen_a b, hfirst_a]
  · rw [hthen_b, hfirst_b]
  · rw [hthen_a b, hthen_b, hfirst_a, hfirst_b]
    exact (hg.commute hf).eq s

end LinkOrder
