import LinkOrder.Link.Build
import LinkOrder.Proofs.Resolution

namespace LinkOrder

/-- The states to which calls lead from `s₀`, with all that was visited on the way. Resolving may fail;
of traversals, those with an outcome in `accepted` are taken. -/
inductive Session (accepted : Outcome → Prop) (s₀ : State) : List LinkUnit → State → Prop
  | start : Session accepted s₀ [] s₀
  | resolve {seen : List LinkUnit} {s : State} (policy : Policy) (name : Symbol) :
      Session accepted s₀ seen s → Session accepted s₀ seen (s.resolve policy name).2
  | traverse {seen : List LinkUnit} {s : State} (policy : Policy) (start : Option (List Symbol)) :
      Session accepted s₀ seen s → accepted (s.traverse policy start) →
      Session accepted s₀ (seen ++ (s.traverse policy start).visits) (s.traverse policy start).state

namespace State

variable {s : State} {units : List LinkUnit} {extdefs includes : SymbolSet} {sink : Option SymbolSet}

/-- Nothing was done yet with this state. -/
structure Fresh (s : State) : Prop where
  chain : s.chain = []
  order : s.order = []
  inactive : ∀ u, s.cursor? u = none

theorem eq_of_build (h : build units extdefs includes sink = .ok s) :
    s = { contexts := units.map ({ unit := · }), extdefs, includes, unresolved := sink } := by
  unfold build at h
  cases hc : checkUnits extdefs [] units with
  | error e =>
    rw [hc] at h
    cases h
  | ok =>
    rw [hc] at h
    cases h
    rfl

theorem fresh_of_build (h : build units extdefs includes sink = .ok s) : s.Fresh := by
  rw [eq_of_build h]
  refine ⟨rfl, rfl, fun u ↦ ?_⟩
  unfold cursor?
  cases hc : contextOf? _ u with
  | none => rfl
  | some c =>
    obtain ⟨v, -, rfl⟩ := List.mem_map.1 (List.mem_of_find?_eq_some hc)
    rfl

end State

end LinkOrder
