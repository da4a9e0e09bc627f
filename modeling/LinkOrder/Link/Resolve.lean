import LinkOrder.Link.State

namespace LinkOrder

inductive Resolution
  /-- The symbol belongs to a unit of this link. -/
  | resolved (owner : LinkUnit)
  /-- Something other than this link provides the symbol. -/
  | deferred
  | undefined
  deriving DecidableEq, Repr

namespace State

variable (s : State) (policy : Policy) (name : Symbol)

def reach : State :=
  { s with includes := if policy.exportIncludes then s.includes else s.includes.erase name }

/-- A symbol whose owner `u` is linked is not external any more, unless externals are allowed, and `u` is
active from then on. -/
def link (u : LinkUnit) : State :=
  { s with extdefs := if policy.allowExternal then s.extdefs else s.extdefs.erase name }.update u
    (Context.activate policy)

/-- Decides what becomes of a symbol. The state changes also where the symbol turns out undefined. -/
def resolve : Resolution × State :=
  if policy.allowExternal ∧ name ∈ s.extdefs then (.deferred, s.record name)
  else
    match s.owner? name with
    | none =>
      (if s.unresolved.isSome then .deferred else .undefined, (s.reach policy name).record name)
    | some u =>
      if u.native then (.deferred, (s.reach policy name).record name)
      else (.resolved u, (s.reach policy name).link policy name u)

theorem remaining_resolve_le : (s.resolve policy name).2.remaining ≤ s.remaining := by
  unfold resolve
  split
  · exact Nat.le_refl _
  · split
    · exact Nat.le_refl _
    · split
      · exact Nat.le_refl _
      · exact sum_update_le (Context.remaining_activate_le policy) s.contexts

theorem chain_resolve : (s.resolve policy name).2.chain = s.chain := by
  unfold resolve
  split
  · rfl
  · split
    · rfl
    · split <;> rfl

end State

end LinkOrder
