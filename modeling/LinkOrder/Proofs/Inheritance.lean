import LinkOrder.Proofs.GraphAgreement
import LinkOrder.Proofs.Simulation

namespace LinkOrder

/-- The same policy with prerequisites only. -/
def Policy.inheriting (policy : Policy) : Policy := { policy with inheritanceOnly := true }

namespace State

variable {s t : State} {policy : Policy} {name p : Symbol} {u v : LinkUnit}

theorem Agrees.symm (h : Agrees policy s t) : Agrees policy t s :=
  ⟨h.units.symm, fun he ↦ (h.extdefs he).symm, h.unresolved.symm⟩

theorem Agrees.inheriting (h : Agrees policy.inheriting s t) : Agrees policy s t :=
  ⟨h.units, h.extdefs, h.unresolved⟩

theorem Agrees.resolve_inheriting (h : Agrees policy s t) (name : Symbol) :
    (t.resolve policy.inheriting name).1 = (s.resolve policy name).1 := by
  have hext : policy.inheriting.allowExternal ∧ name ∈ t.extdefs ↔
      policy.allowExternal ∧ name ∈ s.extdefs := h.external_iff name
  unfold State.resolve
  rw [owner?_congr h.units, h.unresolved]
  by_cases he : policy.allowExternal ∧ name ∈ s.extdefs
  · rw [if_pos he, if_pos (hext.2 he)]
  · rw [if_neg he, if_neg (mt hext.1 he)]
    cases s.owner? name with
    | none => rfl
    | some u => cases hn : u.native <;> simp [hn]

theorem left_of_isSome (h : (s.cursor? u).isSome) (policy : Policy) : s.cursor? u = some (s.left policy u) := by
  obtain ⟨k, hk⟩ := Option.isSome_iff_exists.1 h
  rw [left_of_cursor? hk, hk]

theorem pre?_of_isSome (h : (s.cursor? u).isSome) (policy : Policy) :
    s.pre? u = (s.left policy u).pres.head? := by
  rw [pre?_eq, left_of_isSome h policy, Option.bind_some]

theorem isSome_cursor?_resolve (h : (s.cursor? u).isSome) : ((s.resolve policy name).2.cursor? u).isSome := by
  obtain ⟨k, hk⟩ := Option.isSome_iff_exists.1 h
  rw [cursor?_resolve_of_some hk]
  rfl

theorem isSome_cursor?_update {f : Context → Context} {g : Cursor → Cursor} (hf : ∀ c, (f c).unit = c.unit)
    (hg : ∀ c, (f c).cursor = c.cursor.map g) :
    ((s.update v f).cursor? u).isSome = (s.cursor? u).isSome := by
  rw [cursor?_update hf hg]
  split
  · exact Option.isSome_map
  · rfl

/-- The state `t` of a walk that follows prerequisites only, beside that of one which has gone further for the sake of
dependencies. -/
structure Narrows (policy : Policy) (s t : State) : Prop where
  agrees : s.Agrees policy t
  chain : t.chain = s.chain
  order : t.order = s.order
  left : ∀ u, t.left policy.inheriting u = ⟨(s.left policy u).pres, []⟩
  active : ∀ u, (t.cursor? u).isSome → (s.cursor? u).isSome

namespace Narrows

theorem pre? (h : Narrows policy s t) (hu : (t.cursor? u).isSome) : t.pre? u = s.pre? u := by
  rw [pre?_of_isSome hu policy.inheriting, pre?_of_isSome (h.active u hu) policy, h.left]

theorem with_trail {order order' : List LinkUnit} (h : Narrows policy s t) (chain : List LinkUnit)
    (horder : order' = order) : Narrows policy { s with chain, order } { t with chain, order := order' } :=
  ⟨⟨h.agrees.units, h.agrees.extdefs, h.agrees.unresolved⟩, rfl, horder, h.left, h.active⟩

theorem resolve (h : Narrows policy s t) (name : Symbol) :
    (t.resolve policy.inheriting name).1 = (s.resolve policy name).1 ∧
      Narrows policy (s.resolve policy name).2 (t.resolve policy.inheriting name).2 := by
  have hs := Agrees.resolve policy s name
  have ht := (Agrees.resolve policy.inheriting t name).inheriting
  refine ⟨h.agrees.resolve_inheriting name, (hs.symm.trans h.agrees).trans ht, ?_, ?_, fun u ↦ ?_, fun u hu ↦ ?_⟩
  · rw [chain_resolve, chain_resolve, h.chain]
  · rw [order_resolve, order_resolve, h.order]
  · rw [left_resolve, left_resolve, h.left]
  · rcases t.cursor?_resolve policy.inheriting name u with heq | ⟨hr, -⟩
    · exact isSome_cursor?_resolve (h.active u (heq ▸ hu))
    · have hr' : t.Resolves policy name u := ⟨hr.not_external, hr.owner, hr.not_native⟩
      exact isSome_cursor?_of_resolves (h.agrees.resolves_iff.1 hr')

theorem dropPre (h : Narrows policy s t) (hu : (t.cursor? u).isSome) :
    Narrows policy (s.update u Context.dropPre) (t.update u Context.dropPre) := by
  have hs := Agrees.update Context.dropPre_unit policy s u
  have ht := Agrees.update Context.dropPre_unit policy t u
  refine ⟨(hs.symm.trans h.agrees).trans ht, h.chain, h.order, fun v ↦ ?_, fun v hv ↦ ?_⟩
  · by_cases hvu : v = u
    · subst hvu
      rw [left_of_cursor? (cursor?_dropPre (left_of_isSome hu policy.inheriting)),
        left_of_cursor? (cursor?_dropPre (left_of_isSome (h.active v hu) policy)), h.left]
    · simp only [State.left, cursor?_dropPre_of_ne hvu]
      exact h.left v
  · rw [isSome_cursor?_update Context.dropPre_unit Context.dropPre_cursor] at hv ⊢
    exact h.active v hv

theorem followDep (h : Narrows policy s t) (u : LinkUnit) (d : Symbol) :
    Narrows policy ((s.update u Context.dropDep).resolve policy d).2 t := by
  have hdrop := Agrees.update Context.dropDep_unit policy s u
  have hs := hdrop.trans (Agrees.resolve policy _ d)
  refine ⟨hs.symm.trans h.agrees, ?_, ?_, fun v ↦ ?_, fun v hv ↦ ?_⟩
  · rw [chain_resolve]
    exact h.chain
  · rw [order_resolve]
    exact h.order
  · have hpres : ((s.update u Context.dropDep).left policy v).pres = (s.left policy v).pres := by
      unfold State.left
      rw [cursor?_update Context.dropDep_unit Context.dropDep_cursor]
      split
      · cases s.cursor? v <;> rfl
      · rfl
    rw [left_resolve, hpres, h.left]
  · apply isSome_cursor?_resolve
    rw [isSome_cursor?_update Context.dropDep_unit Context.dropDep_cursor]
    exact h.active v hv

end Narrows

theorem Fresh.narrows (hs : s.Fresh) (policy : Policy) : Narrows policy s s :=
  ⟨.refl policy s, rfl, rfl, fun u ↦ by rw [hs.left_eq, hs.left_eq]; rfl, fun _ h ↦ h⟩

end State

namespace Walk

variable {policy : Policy} {w w' : Walk} {u : LinkUnit}

theorem error_of_followDep? {e : LinkError} (h : w.followDep? policy u = some (some e, w')) :
    ∃ d, e = .undefinedSymbol d ∧ w'.visits = w.visits := by
  obtain ⟨d, -, heq⟩ := Option.map_eq_some_iff.1 h
  rw [enqueue_eq] at heq
  split at heq
  · cases heq
    exact ⟨d, rfl, rfl⟩
  · cases heq

theorem followDeps_ahead (h : Abreast (State.Narrows policy) (fun _ ↦ True) w w') (u : LinkUnit) :
    PairAbreast (State.Narrows policy) (fun _ _ ↦ True) (fun _ ↦ True) (w.followDeps policy u) (none, w') := by
  fun_induction Walk.followDeps w policy u with
  | case1 => exact .same h
  | case2 w e w₁ hfollow =>
    obtain ⟨d, he, hvisits⟩ := error_of_followDep? hfollow
    exact .past ⟨⟨d, he, trivial⟩, hvisits ▸ h.prefix_visits⟩
  | case3 w w₁ hfollow _ ih =>
    obtain ⟨d, -, -, rfl⟩ := await_of_followDep? hfollow
    obtain ⟨more, -, hqueue⟩ := h.queue
    refine ih ⟨h.state.followDep u d, ⟨more ++ (w.dropDep u).state.waiting policy d, trivial, ?_⟩, h.visits⟩
    rw [← List.append_assoc, ← hqueue]
    rfl

end Walk

namespace State

variable {s t : State} {policy : Policy} {u : LinkUnit}

theorem Narrows.followDeps_inheriting {w : Walk} (h : Narrows policy s w.state) (u : LinkUnit) :
    w.followDeps policy.inheriting u = (none, w) := by
  have hdep : w.state.dep? u = none := by
    rw [dep?_eq]
    cases hk : w.state.cursor? u with
    | none => rfl
    | some k =>
      have hleft := h.left u
      rw [left_of_cursor? hk] at hleft
      rw [hleft]
      rfl
  apply Walk.followDeps_of_none
  rw [Walk.followDep?, hdep, Option.map_none]

theorem Narrows.pairing (policy : Policy) :
    Walk.Pairing policy policy.inheriting (fun _ ↦ True) (Narrows policy) fun _ _ ↦ True where
  chain := Narrows.chain
  order := Narrows.order
  with_trail := Narrows.with_trail
  resolve h _ := .inl (h.resolve _)
  skips _ h := h

theorem Fresh.inheriting_simulation (hs : s.Fresh) (hsound : s.Sound) (policy : Policy) (seeds : List Symbol) :
    Walk.Simulation policy policy.inheriting seeds s s (fun _ ↦ True) (Narrows policy) (fun _ _ ↦ True)
      fun _ ↦ True where
  toPairing := Narrows.pairing policy
  start := hs.narrows policy
  seed _ _ := trivial
  extra := trivial
  pre {w w' u rest} _ hw' h hc := by
    have hu : (w'.state.cursor? u).isSome := by
      apply (hsound.steady.moves hw').active
      exact .inr (.inl (by rw [h.state.chain, hc]; exact List.mem_cons_self))
    exact ⟨h.state.pre? hu, fun _ _ ↦ ⟨trivial, h.state.dropPre hu⟩⟩
  deps {_ _ u rest} _ _ h _ := by
    have hvisit := (Narrows.pairing policy).visit h u rest
    rw [hvisit.state.followDeps_inheriting u]
    exact Walk.followDeps_ahead hvisit u

end State

/-- Following dependencies as well does not disturb the order in which prerequisites alone are linked: where the full
traversal succeeds, so does the one with prerequisites only, and all its visits come first in the other. -/
theorem inheritance_order_comes_first {units : List LinkUnit} {extdefs includes : SymbolSet}
    {sink : Option SymbolSet} {s : State} {policy : Policy} {start : List Symbol}
    (hbuild : State.build units extdefs includes sink = .ok s)
    (hok : (s.traverse policy (some start)).error = none) :
    (s.traverse { policy with inheritanceOnly := true } (some start)).error = none ∧
      (s.traverse { policy with inheritanceOnly := true } (some start)).visits <+:
        (s.traverse policy (some start)).visits := by
  have hsim := (State.fresh_of_build hbuild).inheriting_simulation (State.sound_of_build hbuild) policy
    (s.seeds policy (some start))
  have hends := hsim.traverse rfl
  change (s.traverse policy.inheriting (some start)).error = none ∧
    (s.traverse policy.inheriting (some start)).visits <+: _
  generalize s.traverse policy (some start) = o at hends hok ⊢
  generalize s.traverse policy.inheriting (some start) = o' at hends ⊢
  cases hends with
  | same => exact ⟨hok, List.prefix_refl _⟩
  | past herror => cases hok.symm.trans herror
  | early _ _ herror hvisits => exact ⟨herror, hvisits⟩

namespace Orchard

def root : LinkUnit := { name := "root", defs := ["root"], pres := ["soil"], deps := ["fruit", "soil", "gone"] }

def soil : LinkUnit := { name := "soil", defs := ["soil"], deps := ["stone"] }

def branch : LinkUnit := { name := "branch", defs := ["branch"], pres := ["root", "stone"], deps := ["fruit"] }

def stone : LinkUnit := { name := "stone", defs := ["stone"] }

def fruit : LinkUnit := { name := "fruit", defs := ["fruit"], pres := ["branch"] }

def units : List LinkUnit := [root, soil, branch, stone, fruit]

def fresh : State :=
  { contexts := units.map ({ unit := · })
    extdefs := .ofList ["stone"]
    includes := .ofList ["branch"]
    unresolved := some ∅ }

theorem fruit_comes_last :
    State.build units (.ofList ["stone"]) (.ofList ["branch"]) (some ∅) = .ok fresh ∧
      (fresh.traverse { exportIncludes := true } (some ["root"])).error = none ∧
      (fresh.traverse { exportIncludes := true } (some ["root"])).visits = [soil, root, stone, branch, fruit] ∧
      (fresh.traverse { exportIncludes := true, inheritanceOnly := true } (some ["root"])).error = none ∧
      (fresh.traverse { exportIncludes := true, inheritanceOnly := true } (some ["root"])).visits <+:
        [soil, root, stone, branch, fruit] := by
  have hbuild : State.build units (.ofList ["stone"]) (.ofList ["branch"]) (some ∅) = .ok fresh := rfl
  have hok : (fresh.traverse { exportIncludes := true } (some ["root"])).error = none := by decide +kernel
  have hvisits : (fresh.traverse { exportIncludes := true } (some ["root"])).visits =
      [soil, root, stone, branch, fruit] := by decide +kernel
  obtain ⟨herror, hbefore⟩ := inheritance_order_comes_first hbuild hok
  exact ⟨hbuild, hok, hvisits, herror, hvisits ▸ hbefore⟩

end Orchard

end LinkOrder
