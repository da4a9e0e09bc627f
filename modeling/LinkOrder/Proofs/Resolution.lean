import LinkOrder.Link.Walk

namespace LinkOrder

/-- The dependencies of a unit that are followed. -/
def Policy.depsOf (policy : Policy) (u : LinkUnit) : List Symbol :=
  if policy.inheritanceOnly then [] else u.deps

theorem Context.activate_unit (policy : Policy) (c : Context) : (c.activate policy).unit = c.unit := by
  unfold activate
  split <;> rfl

theorem Context.activate_cursor (policy : Policy) (c : Context) :
    (c.activate policy).cursor = some (c.cursor.getD ⟨c.unit.pres, policy.depsOf c.unit⟩) := by
  unfold activate
  split
  · next k hk => rw [hk, Option.getD_some]
  · next hk => rw [hk, Option.getD_none, Policy.depsOf]

theorem Context.dropPre_unit (c : Context) : c.dropPre.unit = c.unit := rfl

theorem Context.dropPre_cursor (c : Context) :
    c.dropPre.cursor = c.cursor.map fun k ↦ { k with pres := k.pres.tail } := rfl

theorem Context.dropDep_unit (c : Context) : c.dropDep.unit = c.unit := rfl

theorem Context.dropDep_cursor (c : Context) :
    c.dropDep.cursor = c.cursor.map fun k ↦ { k with deps := k.deps.tail } := rfl

namespace State

variable {s t : State} {policy : Policy} {name : Symbol} {u v : LinkUnit} {k : Cursor}

def cursor? (s : State) (u : LinkUnit) : Option Cursor := (s.contextOf? u).bind (·.cursor)

theorem pre?_eq (s : State) (u : LinkUnit) : s.pre? u = (s.cursor? u).bind (·.pres.head?) := by
  unfold pre? cursor?
  cases s.contextOf? u <;> rfl

theorem dep?_eq (s : State) (u : LinkUnit) : s.dep? u = (s.cursor? u).bind (·.deps.head?) := by
  unfold dep? cursor?
  cases s.contextOf? u <;> rfl

theorem exists_cursor_of_pre? {p : Symbol} (h : s.pre? u = some p) :
    ∃ rest deps, s.cursor? u = some ⟨p :: rest, deps⟩ := by
  rw [pre?_eq] at h
  obtain ⟨⟨pres, deps⟩, hk, hp⟩ := Option.bind_eq_some_iff.1 h
  obtain ⟨rest, rfl⟩ := List.head?_eq_some_iff.1 hp
  exact ⟨rest, deps, hk⟩

theorem exists_cursor_of_dep? {d : Symbol} (h : s.dep? u = some d) :
    ∃ pres rest, s.cursor? u = some ⟨pres, d :: rest⟩ := by
  rw [dep?_eq] at h
  obtain ⟨⟨pres, deps⟩, hk, hd⟩ := Option.bind_eq_some_iff.1 h
  obtain ⟨rest, rfl⟩ := List.head?_eq_some_iff.1 hd
  exact ⟨pres, rest, hk⟩

theorem pres_eq_nil_of_pre? (h : s.pre? u = none) (hk : s.cursor? u = some k) : k.pres = [] := by
  rw [pre?_eq, hk, Option.bind_some] at h
  exact List.head?_eq_none_iff.1 h

theorem deps_eq_nil_of_dep? (h : s.dep? u = none) (hk : s.cursor? u = some k) : k.deps = [] := by
  rw [dep?_eq, hk, Option.bind_some] at h
  exact List.head?_eq_none_iff.1 h

theorem contextOf?_update {f : Context → Context} (hf : ∀ c, (f c).unit = c.unit) (s : State)
    (u v : LinkUnit) :
    (s.update v f).contextOf? u = if u = v then (s.contextOf? u).map f else s.contextOf? u := by
  unfold contextOf? update
  induction s.contexts with
  | nil => simp
  | cons c l ih =>
    by_cases hc : c.unit = u
    · by_cases huv : u = v <;> simp [hc, huv, hf]
    · have hc' : ((if c.unit = v then f c else c).unit = u) ↔ False := by
        split <;> simp [hf, hc]
      simpa [List.find?_cons, hc, hc'] using ih

theorem cursor?_update {f : Context → Context} {g : Cursor → Cursor}
    (hf : ∀ c, (f c).unit = c.unit) (hg : ∀ c, (f c).cursor = c.cursor.map g) (s : State)
    (u v : LinkUnit) :
    (s.update v f).cursor? u = if u = v then (s.cursor? u).map g else s.cursor? u := by
  unfold cursor?
  rw [contextOf?_update hf]
  split
  · cases s.contextOf? u with
    | none => rfl
    | some c => exact hg c
  · rfl

theorem cursor?_dropPre (h : s.cursor? u = some k) :
    (s.update u Context.dropPre).cursor? u = some { k with pres := k.pres.tail } := by
  rw [cursor?_update Context.dropPre_unit Context.dropPre_cursor, if_pos rfl, h, Option.map_some]

theorem cursor?_dropPre_of_ne (h : v ≠ u) : (s.update u Context.dropPre).cursor? v = s.cursor? v := by
  rw [cursor?_update Context.dropPre_unit Context.dropPre_cursor, if_neg h]

theorem cursor?_dropDep (h : s.cursor? u = some k) :
    (s.update u Context.dropDep).cursor? u = some { k with deps := k.deps.tail } := by
  rw [cursor?_update Context.dropDep_unit Context.dropDep_cursor, if_pos rfl, h, Option.map_some]

theorem cursor?_dropDep_of_ne (h : v ≠ u) : (s.update u Context.dropDep).cursor? v = s.cursor? v := by
  rw [cursor?_update Context.dropDep_unit Context.dropDep_cursor, if_neg h]

theorem units_update {f : Context → Context} (hf : ∀ c, (f c).unit = c.unit) (s : State)
    (u : LinkUnit) : (s.update u f).units = s.units := by
  unfold units update
  rw [List.map_map]
  refine List.map_congr_left fun c _ ↦ ?_
  simp only [Function.comp_apply]
  split
  · exact hf c
  · rfl

theorem owner?_congr (h : s.units = t.units) (name : Symbol) : s.owner? name = t.owner? name := by
  unfold owner?
  rw [h]

theorem mem_units_of_owner? (h : s.owner? name = some u) : u ∈ s.units := List.mem_of_find?_eq_some h

theorem exists_context_of_mem (h : u ∈ s.units) : ∃ c, s.contextOf? u = some c ∧ c.unit = u := by
  obtain ⟨c, hc, rfl⟩ := List.mem_map.1 h
  have hs : (s.contextOf? c.unit).isSome := List.find?_isSome.2 ⟨c, hc, by simp⟩
  obtain ⟨b, hb⟩ := Option.isSome_iff_exists.1 hs
  exact ⟨b, hb, by simpa using List.find?_some hb⟩

/-- The symbol leads to a unit of this link. -/
structure Resolves (s : State) (policy : Policy) (name : Symbol) (u : LinkUnit) : Prop where
  not_external : ¬(policy.allowExternal ∧ name ∈ s.extdefs)
  owner : s.owner? name = some u
  not_native : u.native = false

/-- No unit defines the symbol, and it is not left to others either. -/
def Undefined (s : State) (policy : Policy) (name : Symbol) : Prop :=
  ¬(policy.allowExternal ∧ name ∈ s.extdefs) ∧ s.owner? name = none

theorem Resolves.unique (h : s.Resolves policy name u) (h' : s.Resolves policy name v) : u = v :=
  Option.some_inj.1 (h.owner.symm.trans h'.owner)

theorem resolve_of_resolves (h : s.Resolves policy name u) :
    s.resolve policy name = (.resolved u, (s.reach policy name).link policy name u) := by
  unfold resolve
  rw [if_neg h.not_external, h.owner]
  simp only [h.not_native, Bool.false_eq_true, if_false]

theorem resolve_of_undefined (h : s.Undefined policy name) :
    s.resolve policy name =
      (if s.unresolved.isSome then .deferred else .undefined, (s.reach policy name).record name) := by
  unfold resolve
  rw [if_neg h.1, h.2]

theorem resolve_of_deferred (hr : ∀ u, ¬s.Resolves policy name u) (hu : ¬s.Undefined policy name) :
    s.resolve policy name = (.deferred, s.record name) ∨
      s.resolve policy name = (.deferred, (s.reach policy name).record name) := by
  unfold resolve
  by_cases he : policy.allowExternal ∧ name ∈ s.extdefs
  · exact .inl (if_pos he)
  · rw [if_neg he]
    cases ho : s.owner? name with
    | none => exact absurd ⟨he, ho⟩ hu
    | some u =>
      cases hn : u.native with
      | false => exact absurd ⟨he, ho, hn⟩ (hr u)
      | true =>
        right
        simp only [hn, if_true]

theorem resolve_eq_resolved_iff :
    (s.resolve policy name).1 = .resolved u ↔ s.Resolves policy name u := by
  constructor
  · intro h
    by_cases hr : ∃ v, s.Resolves policy name v
    · obtain ⟨v, hv⟩ := hr
      rw [resolve_of_resolves hv] at h
      cases h
      exact hv
    · rw [not_exists] at hr
      by_cases hu : s.Undefined policy name
      · rw [resolve_of_undefined hu] at h
        dsimp only at h
        split at h <;> cases h
      · rcases resolve_of_deferred hr hu with heq | heq <;> rw [heq] at h <;> cases h
  · intro h
    rw [resolve_of_resolves h]

theorem resolve_eq_undefined_iff :
    (s.resolve policy name).1 = .undefined ↔ s.Undefined policy name ∧ s.unresolved = none := by
  by_cases hu : s.Undefined policy name
  · rw [resolve_of_undefined hu]
    cases s.unresolved <;> simp [hu]
  · have hne : (s.resolve policy name).1 ≠ .undefined := by
      by_cases hr : ∃ v, s.Resolves policy name v
      · obtain ⟨v, hv⟩ := hr
        rw [resolve_of_resolves hv]
        exact Resolution.noConfusion
      · rcases resolve_of_deferred (not_exists.1 hr) hu with heq | heq <;> rw [heq] <;>
          exact Resolution.noConfusion
    exact ⟨fun h ↦ absurd h hne, fun h ↦ absurd h.1 hu⟩

/-- What resolving a symbol changes: an external one is recorded, one that leads nowhere is reached and
recorded, and any other is reached and linked. -/
theorem resolve_cases (s : State) (policy : Policy) (name : Symbol) :
    (policy.allowExternal ∧ name ∈ s.extdefs) ∧ (s.resolve policy name).2 = s.record name ∨
      ¬(policy.allowExternal ∧ name ∈ s.extdefs) ∧ (∀ u, ¬s.Resolves policy name u) ∧
        (s.resolve policy name).2 = (s.reach policy name).record name ∨
      ∃ u, s.Resolves policy name u ∧
        (s.resolve policy name).2 = (s.reach policy name).link policy name u := by
  by_cases he : policy.allowExternal ∧ name ∈ s.extdefs
  · exact .inl ⟨he, by rw [resolve, if_pos he]⟩
  · right
    by_cases hr : ∃ u, s.Resolves policy name u
    · obtain ⟨u, hu⟩ := hr
      exact .inr ⟨u, hu, by rw [resolve_of_resolves hu]⟩
    · refine .inl ⟨he, not_exists.1 hr, ?_⟩
      rw [resolve, if_neg he]
      cases ho : s.owner? name with
      | none => rfl
      | some u =>
        cases hn : u.native with
        | false => exact absurd ⟨u, he, ho, hn⟩ hr
        | true => simp [hn]

theorem resolve_state (s : State) (policy : Policy) (name : Symbol) :
    (s.resolve policy name).2 = s.record name ∨
      (s.resolve policy name).2 = (s.reach policy name).record name ∨
      ∃ u, s.Resolves policy name u ∧
        (s.resolve policy name).2 = (s.reach policy name).link policy name u := by
  rcases s.resolve_cases policy name with ⟨-, h⟩ | ⟨-, -, h⟩ | h
  · exact .inl h
  · exact .inr (.inl h)
  · exact .inr (.inr h)

theorem order_resolve (s : State) (policy : Policy) (name : Symbol) :
    (s.resolve policy name).2.order = s.order := by
  rcases s.resolve_state policy name with h | h | ⟨u, -, h⟩ <;> rw [h] <;> rfl

theorem units_resolve (s : State) (policy : Policy) (name : Symbol) :
    (s.resolve policy name).2.units = s.units := by
  rcases s.resolve_state policy name with h | h | ⟨u, -, h⟩ <;> rw [h]
  · rfl
  · rfl
  · exact units_update (Context.activate_unit policy) _ u

theorem isSome_unresolved_resolve (s : State) (policy : Policy) (name : Symbol) :
    (s.resolve policy name).2.unresolved.isSome = s.unresolved.isSome := by
  rcases s.resolve_state policy name with h | h | ⟨u, -, h⟩ <;> rw [h]
  · exact Option.isSome_map
  · exact Option.isSome_map
  · rfl

theorem extdefs_resolve (h : policy.allowExternal) (s : State) (name : Symbol) :
    (s.resolve policy name).2.extdefs = s.extdefs := by
  rcases s.resolve_state policy name with heq | heq | ⟨u, -, heq⟩ <;> rw [heq]
  · rfl
  · rfl
  · exact if_pos h

theorem cursor?_activate (hu : u ∈ s.units) :
    (s.update u (Context.activate policy)).cursor? v =
      if v = u then some ((s.cursor? u).getD ⟨u.pres, policy.depsOf u⟩) else s.cursor? v := by
  unfold cursor?
  rw [contextOf?_update (Context.activate_unit policy)]
  split
  · next h =>
    subst h
    obtain ⟨c, hc, hcu⟩ := exists_context_of_mem hu
    rw [hc, Option.map_some, Option.bind_some, Option.bind_some, Context.activate_cursor, hcu]
  · rfl

theorem cursor?_link (hu : u ∈ s.units) :
    (s.link policy name u).cursor? v =
      if v = u then some ((s.cursor? u).getD ⟨u.pres, policy.depsOf u⟩) else s.cursor? v :=
  cursor?_activate (s := { s with extdefs := _ }) hu

theorem cursor?_resolve (s : State) (policy : Policy) (name : Symbol) (u : LinkUnit) :
    (s.resolve policy name).2.cursor? u = s.cursor? u ∨
      s.Resolves policy name u ∧ s.cursor? u = none ∧
        (s.resolve policy name).2.cursor? u = some ⟨u.pres, policy.depsOf u⟩ := by
  rcases s.resolve_state policy name with h | h | ⟨v, hv, h⟩ <;> rw [h]
  · exact .inl rfl
  · exact .inl rfl
  · have hm : v ∈ (s.reach policy name).units := mem_units_of_owner? hv.owner
    have hc : ∀ x, (s.reach policy name).cursor? x = s.cursor? x := fun _ ↦ rfl
    rw [cursor?_link hm, hc, hc]
    by_cases huv : u = v
    · subst huv
      rw [if_pos rfl]
      cases hk : s.cursor? u with
      | none => exact .inr ⟨hv, rfl, rfl⟩
      | some k => exact .inl rfl
    · rw [if_neg huv]
      exact .inl rfl

theorem cursor?_resolve_of_some (h : s.cursor? u = some k) :
    (s.resolve policy name).2.cursor? u = some k := by
  rcases s.cursor?_resolve policy name u with heq | ⟨-, hn, -⟩
  · rw [heq, h]
  · rw [hn] at h
    cases h

theorem isSome_cursor?_of_resolves (h : s.Resolves policy name u) :
    ((s.resolve policy name).2.cursor? u).isSome := by
  rw [resolve_of_resolves h, cursor?_link (s := s.reach policy name) (mem_units_of_owner? h.owner),
    if_pos rfl]
  rfl

/-- Two states between which references lead to the same units under a policy. -/
structure Agrees (policy : Policy) (s t : State) : Prop where
  units : t.units = s.units
  extdefs : policy.allowExternal → t.extdefs = s.extdefs
  unresolved : t.unresolved.isSome = s.unresolved.isSome

namespace Agrees

theorem refl (policy : Policy) (s : State) : Agrees policy s s := ⟨rfl, fun _ ↦ rfl, rfl⟩

theorem trans {r : State} (h : Agrees policy s t) (h' : Agrees policy t r) : Agrees policy s r :=
  ⟨h'.units.trans h.units, fun he ↦ (h'.extdefs he).trans (h.extdefs he),
    h'.unresolved.trans h.unresolved⟩

theorem resolve (policy : Policy) (s : State) (name : Symbol) :
    Agrees policy s (s.resolve policy name).2 :=
  ⟨units_resolve s policy name, fun h ↦ extdefs_resolve h s name,
    isSome_unresolved_resolve s policy name⟩

theorem update {f : Context → Context} (hf : ∀ c, (f c).unit = c.unit) (policy : Policy) (s : State)
    (u : LinkUnit) : Agrees policy s (s.update u f) := ⟨units_update hf s u, fun _ ↦ rfl, rfl⟩

theorem external_iff (h : Agrees policy s t) (name : Symbol) :
    policy.allowExternal ∧ name ∈ t.extdefs ↔ policy.allowExternal ∧ name ∈ s.extdefs :=
  and_congr_right fun he ↦ by rw [h.extdefs he]

theorem resolves_iff (h : Agrees policy s t) : t.Resolves policy name u ↔ s.Resolves policy name u := by
  have ho := owner?_congr h.units name
  constructor
  · intro hr
    exact ⟨(not_congr (h.external_iff name)).1 hr.1, ho ▸ hr.2, hr.3⟩
  · intro hr
    exact ⟨(not_congr (h.external_iff name)).2 hr.1, ho ▸ hr.2, hr.3⟩

theorem undefined_iff (h : Agrees policy s t) :
    t.Undefined policy name ↔ s.Undefined policy name := by
  unfold Undefined
  rw [h.external_iff, owner?_congr h.units]

end Agrees

end State

end LinkOrder
