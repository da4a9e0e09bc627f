import LinkOrder.Link.Resolve

namespace LinkOrder

/-- A walk under way: the state, the units that wait, and the units visited by this walk. -/
structure Walk where
  state : State
  queue : List LinkUnit := []
  visits : List LinkUnit := []
  deriving DecidableEq

structure Outcome where
  visits : List LinkUnit
  error : Option LinkError
  state : State
  deriving DecidableEq

namespace State

def pre? (s : State) (u : LinkUnit) : Option Symbol := (s.contextOf? u).bind Context.pre?

def dep? (s : State) (u : LinkUnit) : Option Symbol := (s.contextOf? u).bind Context.dep?

theorem remaining_dropPre_lt {s : State} {u : LinkUnit} {p : Symbol} (h : s.pre? u = some p) :
    (s.update u Context.dropPre).remaining < s.remaining := by
  obtain ⟨c, hc, hp⟩ := Option.bind_eq_some_iff.1 h
  exact remaining_update_lt Context.remaining_dropPre_le hc (Context.remaining_dropPre_lt hp)

theorem remaining_dropDep_lt {s : State} {u : LinkUnit} {d : Symbol} (h : s.dep? u = some d) :
    (s.update u Context.dropDep).remaining < s.remaining := by
  obtain ⟨c, hc, hd⟩ := Option.bind_eq_some_iff.1 h
  exact remaining_update_lt Context.remaining_dropDep_le hc (Context.remaining_dropDep_lt hd)

/-- The symbols at which a walk begins: those given, or else every definition that is not external, and
the includes where they are exported. -/
def seeds (s : State) (policy : Policy) (start : Option (List Symbol)) : List Symbol :=
  let own := if policy.inheritanceOnly then [] else s.defNames.filter (· ∉ s.extdefs)
  start.getD own ++ if policy.exportIncludes then s.includes.toList else []

end State

def circularReference (chain : List LinkUnit) (u v : LinkUnit) : LinkError :=
  let between := (chain.takeWhile (· ≠ v)).reverse
  .circularReference u.name ((v :: between ++ [v]).map (·.name))

namespace Walk

/-- Resolves a symbol and lets its owner wait, unless that was visited. -/
def enqueue (w : Walk) (policy : Policy) (name : Symbol) : Option LinkError × Walk :=
  match w.state.resolve policy name with
  | (.resolved u, s) =>
    (none, { w with state := s, queue := if u ∈ s.order then w.queue else w.queue ++ [u] })
  | (.deferred, s) => (none, { w with state := s })
  | (.undefined, s) => (some (.undefinedSymbol name), { w with state := s })

def enqueueAll (w : Walk) (policy : Policy) : List Symbol → Option LinkError × Walk
  | [] => (none, w)
  | name :: rest =>
    match w.enqueue policy name with
    | (some e, w) => (some e, w)
    | (none, w) => w.enqueueAll policy rest

def weight (w : Walk) : Nat :=
  3 * w.state.remaining + 2 * w.queue.length + w.state.chain.length

theorem remaining_enqueue_le (w : Walk) (policy : Policy) (name : Symbol) :
    (w.enqueue policy name).2.state.remaining ≤ w.state.remaining := by
  have := w.state.remaining_resolve_le policy name
  unfold enqueue
  split <;> simp_all

theorem weight_enqueue_le (w : Walk) (policy : Policy) (name : Symbol) :
    (w.enqueue policy name).2.weight ≤ w.weight + 2 := by
  have h₁ := w.state.remaining_resolve_le policy name
  have h₂ := w.state.chain_resolve policy name
  unfold enqueue weight
  split <;> rename_i heq <;> simp only [heq] at h₁ h₂ ⊢ <;> rw [h₂]
  · split
    · omega
    · simp only [List.length_append, List.length_singleton]
      omega
  · omega
  · omega

def followDep? (w : Walk) (policy : Policy) (u : LinkUnit) : Option (Option LinkError × Walk) :=
  (w.state.dep? u).map fun d ↦
    { w with state := w.state.update u Context.dropDep }.enqueue policy d

theorem remaining_followDep?_lt {w w' : Walk} {policy : Policy} {u : LinkUnit}
    {e : Option LinkError} (h : w.followDep? policy u = some (e, w')) :
    w'.state.remaining < w.state.remaining := by
  obtain ⟨d, hd, heq⟩ := Option.map_eq_some_iff.1 h
  have h₁ := State.remaining_dropDep_lt hd
  have h₂ := remaining_enqueue_le { w with state := w.state.update u Context.dropDep } policy d
  rw [heq] at h₂
  exact Nat.lt_of_le_of_lt h₂ h₁

theorem weight_followDep?_lt {w w' : Walk} {policy : Policy} {u : LinkUnit}
    {e : Option LinkError} (h : w.followDep? policy u = some (e, w')) : w'.weight < w.weight := by
  obtain ⟨d, hd, heq⟩ := Option.map_eq_some_iff.1 h
  have h₁ := State.remaining_dropDep_lt hd
  have h₂ := weight_enqueue_le { w with state := w.state.update u Context.dropDep } policy d
  rw [heq] at h₂
  simp only [weight, State.update] at h₁ h₂ ⊢
  omega

def followDeps (w : Walk) (policy : Policy) (u : LinkUnit) : Option LinkError × Walk :=
  match h : w.followDep? policy u with
  | none => (none, w)
  | some (some e, w') => (some e, w')
  | some (none, w') =>
    have := remaining_followDep?_lt h
    w'.followDeps policy u
termination_by w.state.remaining

theorem followDeps_of_none {w : Walk} {policy : Policy} {u : LinkUnit}
    (h : w.followDep? policy u = none) : w.followDeps policy u = (none, w) := by
  rw [followDeps]
  split <;> rename_i heq <;> rw [h] at heq <;> cases heq

theorem followDeps_of_error {w w' : Walk} {policy : Policy} {u : LinkUnit} {e : LinkError}
    (h : w.followDep? policy u = some (some e, w')) : w.followDeps policy u = (some e, w') := by
  rw [followDeps]
  split <;> rename_i heq <;> rw [h] at heq <;> cases heq
  rfl

theorem followDeps_of_some {w w' : Walk} {policy : Policy} {u : LinkUnit}
    (h : w.followDep? policy u = some (none, w')) :
    w.followDeps policy u = w'.followDeps policy u := by
  rw [followDeps]
  split <;> rename_i heq <;> rw [h] at heq <;> cases heq
  rfl

theorem weight_followDeps_le (w : Walk) (policy : Policy) (u : LinkUnit) :
    (w.followDeps policy u).2.weight ≤ w.weight := by
  fun_induction followDeps w policy u with
  | case1 => exact Nat.le_refl _
  | case2 w e w' h => exact Nat.le_of_lt (weight_followDep?_lt h)
  | case3 w w' h _ ih => exact Nat.le_trans ih (Nat.le_of_lt (weight_followDep?_lt h))

def visit (w : Walk) (u : LinkUnit) (chain : List LinkUnit) : Walk :=
  { w with state := { w.state with order := w.state.order ++ [u], chain }, visits := w.visits ++ [u] }

inductive Step
  | next (w : Walk)
  | fail (e : LinkError) (w : Walk)
  | done

def followPre (w : Walk) (policy : Policy) (u : LinkUnit) (p : Symbol) : Step :=
  match (w.state.update u Context.dropPre).resolve policy p with
  | (.undefined, s) => .fail (.undefinedSymbol p) { w with state := s }
  | (.deferred, s) => .next { w with state := s }
  | (.resolved v, s) =>
    if v ∈ s.chain then .fail (circularReference s.chain u v) { w with state := s }
    else if v ∈ s.order then .next { w with state := s }
    else .next { w with state := { s with chain := v :: s.chain } }

/-- One step: the innermost unit in progress follows a prerequisite, or has none left and is visited; with
no unit in progress, the next that waits is. -/
def step (w : Walk) (policy : Policy) : Step :=
  match w.state.chain with
  | u :: chain =>
    match w.state.pre? u with
    | some p => w.followPre policy u p
    | none =>
      match (w.visit u chain).followDeps policy u with
      | (some e, w) => .fail e w
      | (none, w) => .next w
  | [] =>
    match w.queue with
    | [] => .done
    | u :: queue =>
      if u ∈ w.state.order then .next { w with queue }
      else .next { w with queue, state := { w.state with chain := [u] } }

theorem weight_followPre_lt {w w' : Walk} {policy : Policy} {u : LinkUnit} {p : Symbol}
    (hp : w.state.pre? u = some p) (h : w.followPre policy u p = .next w') :
    w'.weight < w.weight := by
  have h₁ := State.remaining_dropPre_lt hp
  have h₂ := (w.state.update u Context.dropPre).remaining_resolve_le policy p
  have h₃ : ((w.state.update u Context.dropPre).resolve policy p).2.chain = w.state.chain :=
    State.chain_resolve _ policy p
  unfold followPre at h
  split at h
  · cases h
  · next s heq =>
    cases h
    simp only [heq] at h₂ h₃
    simp only [weight, h₃]
    omega
  · next v s heq =>
    simp only [heq] at h₂ h₃
    split at h
    · cases h
    · split at h
      · cases h
        simp only [weight, h₃]
        omega
      · cases h
        have hr : State.remaining { s with chain := v :: w.state.chain } = s.remaining := rfl
        simp only [weight, h₃, hr, List.length_cons]
        omega

theorem weight_step_lt {w w' : Walk} {policy : Policy} (h : w.step policy = .next w') :
    w'.weight < w.weight := by
  unfold step at h
  split at h
  · next u chain hc =>
    split at h
    · next p hp => exact weight_followPre_lt hp h
    · have hv : (w.visit u chain).weight < w.weight := by
        have hr : (w.visit u chain).state.remaining = w.state.remaining := rfl
        simp only [weight, hr, hc, List.length_cons]
        simp only [visit]
        omega
      have hd := weight_followDeps_le (w.visit u chain) policy u
      split at h
      · cases h
      · next heq =>
        cases h
        rw [heq] at hd
        exact Nat.lt_of_le_of_lt hd hv
  · next hc =>
    split at h
    · cases h
    · next u queue hq =>
      split at h
      · cases h
        simp only [weight, hq, List.length_cons]
        omega
      · cases h
        have hr : State.remaining { w.state with chain := [u] } = w.state.remaining := rfl
        simp only [weight, hr, hq, hc, List.length_cons, List.length_nil]
        omega

/-- Walks until nothing waits. After an error no unit is in progress any more, but what was followed and
visited before it stays so. -/
def run (w : Walk) (policy : Policy) : Outcome :=
  match h : w.step policy with
  | .done => ⟨w.visits, none, w.state⟩
  | .fail e w' => ⟨w'.visits, some e, { w'.state with chain := [] }⟩
  | .next w' =>
    have := weight_step_lt h
    w'.run policy
termination_by w.weight

variable {w w' : Walk} {policy : Policy}

theorem run_of_next (h : w.step policy = .next w') : w.run policy = w'.run policy := by
  rw [run]
  split <;> rename_i heq <;> rw [h] at heq <;> cases heq
  rfl

theorem run_of_fail {e : LinkError} (h : w.step policy = .fail e w') :
    w.run policy = ⟨w'.visits, some e, { w'.state with chain := [] }⟩ := by
  rw [run]
  split <;> rename_i heq <;> rw [h] at heq <;> cases heq
  rfl

theorem run_of_done (h : w.step policy = .done) : w.run policy = ⟨w.visits, none, w.state⟩ := by
  rw [run]
  split <;> rename_i heq <;> rw [h] at heq <;> cases heq

end Walk

/-- Visits every unit that can be reached from the seeds and was not visited before, each after its
prerequisites. -/
def State.traverse (s : State) (policy : Policy) (start : Option (List Symbol)) : Outcome :=
  match Walk.enqueueAll ⟨s, [], []⟩ policy (s.seeds policy start) with
  | (some e, w) => ⟨[], some e, w.state⟩
  | (none, w) => w.run policy

end LinkOrder
