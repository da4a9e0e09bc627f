import LinkOrder.Proofs.Resolution
import Mathlib.Logic.Relation

namespace LinkOrder

open Relation

namespace State

variable {s : State} {policy : Policy} {name p : Symbol} {u v : LinkUnit} {k : Cursor}

/-- The owner of a symbol, if it is to wait for its turn. -/
def waiting (s : State) (policy : Policy) (name : Symbol) : List LinkUnit :=
  match (s.resolve policy name).1 with
  | .resolved u => if u ∈ s.order then [] else [u]
  | _ => []

theorem waiting_of_resolves (h : s.Resolves policy name u) :
    s.waiting policy name = [u].filter (· ∉ s.order) := by
  unfold waiting
  rw [resolve_eq_resolved_iff.2 h]
  by_cases hu : u ∈ s.order <;> simp [hu]

theorem waiting_of_not_resolves (h : ∀ u, ¬s.Resolves policy name u) :
    s.waiting policy name = [] := by
  unfold waiting
  split
  · next u hu => exact absurd (resolve_eq_resolved_iff.1 hu) (h u)
  · rfl

theorem mem_waiting : v ∈ s.waiting policy name ↔ s.Resolves policy name v ∧ v ∉ s.order := by
  by_cases h : ∃ u, s.Resolves policy name u
  · obtain ⟨u, hu⟩ := h
    rw [waiting_of_resolves hu, List.mem_filter, List.mem_singleton, decide_eq_true_iff]
    refine and_congr_left fun _ ↦ ⟨?_, fun hv ↦ hv.unique hu⟩
    rintro rfl
    exact hu
  · rw [waiting_of_not_resolves (not_exists.1 h)]
    exact ⟨fun hv ↦ absurd hv List.not_mem_nil, fun hv ↦ absurd ⟨v, hv.1⟩ h⟩

def followPre (s : State) (policy : Policy) (u : LinkUnit) (p : Symbol) : State :=
  ((s.update u Context.dropPre).resolve policy p).2

theorem chain_followPre (s : State) (policy : Policy) (u : LinkUnit) (p : Symbol) :
    (s.followPre policy u p).chain = s.chain := chain_resolve _ policy p

theorem order_followPre (s : State) (policy : Policy) (u : LinkUnit) (p : Symbol) :
    (s.followPre policy u p).order = s.order := order_resolve _ policy p

theorem Agrees.followPre (policy : Policy) (s : State) (u : LinkUnit) (p : Symbol) :
    Agrees policy s (s.followPre policy u p) :=
  (Agrees.update Context.dropPre_unit policy s u).trans (Agrees.resolve policy _ p)

theorem cursor?_followPre (h : s.cursor? u = some k) :
    (s.followPre policy u p).cursor? u = some { k with pres := k.pres.tail } :=
  cursor?_resolve_of_some (cursor?_dropPre h)

theorem cursor?_followPre_of_ne (h : v ≠ u) :
    (s.followPre policy u p).cursor? v = s.cursor? v ∨
      s.cursor? v = none ∧ (s.followPre policy u p).cursor? v = some ⟨v.pres, policy.depsOf v⟩ := by
  have hv := (s.update u Context.dropPre).cursor?_resolve policy p v
  rw [cursor?_dropPre_of_ne h] at hv
  exact hv.imp_right And.right

theorem cursor?_followPre_of_some (h : v ≠ u) (hk : s.cursor? v = some k) :
    (s.followPre policy u p).cursor? v = some k := by
  rcases cursor?_followPre_of_ne h with heq | ⟨heq, -⟩
  · exact heq.trans hk
  · cases heq.symm.trans hk

theorem pres_followPre (h : v ≠ u) (hs : ∀ k, s.cursor? v = some k → k.pres = v.pres)
    (hk : (s.followPre policy u p).cursor? v = some k) : k.pres = v.pres := by
  rcases cursor?_followPre_of_ne h with heq | ⟨-, heq⟩
  · exact hs k (heq.symm.trans hk)
  · cases heq.symm.trans hk
    rfl

end State

namespace Walk

def await (w : Walk) (policy : Policy) (name : Symbol) : Walk :=
  { w with
    state := (w.state.resolve policy name).2
    queue := w.queue ++ w.state.waiting policy name }

theorem order_await (w : Walk) (policy : Policy) (name : Symbol) :
    (w.await policy name).state.order = w.state.order := State.order_resolve _ policy name

theorem chain_await (w : Walk) (policy : Policy) (name : Symbol) :
    (w.await policy name).state.chain = w.state.chain := State.chain_resolve _ policy name

def dropDep (w : Walk) (u : LinkUnit) : Walk := { w with state := w.state.update u Context.dropDep }

/-- The moves of a walk. A walk makes them in a certain order, which is left open here. -/
inductive Move (policy : Policy) (seeds : List Symbol) : Walk → Walk → Prop
  | seed {w : Walk} {name : Symbol} (hname : name ∈ seeds)
      (hdef : (w.state.resolve policy name).1 ≠ .undefined) :
      Move policy seeds w (w.await policy name)
  | dep {w : Walk} {u : LinkUnit} {d : Symbol} (hu : u ∈ w.state.order)
      (hd : w.state.dep? u = some d)
      (hdef : ((w.dropDep u).state.resolve policy d).1 ≠ .undefined) :
      Move policy seeds w ((w.dropDep u).await policy d)
  | pass {w : Walk} {u : LinkUnit} {p : Symbol} {rest : List LinkUnit}
      (hc : w.state.chain = u :: rest) (hp : w.state.pre? u = some p)
      (hdef : ((w.state.update u Context.dropPre).resolve policy p).1 ≠ .undefined)
      (hv : ∀ v, w.state.Resolves policy p v → v ∈ w.state.order) :
      Move policy seeds w { w with state := w.state.followPre policy u p }
  | descend {w : Walk} {u v : LinkUnit} {p : Symbol} {rest : List LinkUnit}
      (hc : w.state.chain = u :: rest) (hp : w.state.pre? u = some p)
      (hv : w.state.Resolves policy p v) (hchain : v ∉ w.state.chain) (horder : v ∉ w.state.order) :
      Move policy seeds w
        { w with state := { w.state.followPre policy u p with chain := v :: w.state.chain } }
  | visit {w : Walk} {u : LinkUnit} {rest : List LinkUnit} (hc : w.state.chain = u :: rest)
      (hp : w.state.pre? u = none) : Move policy seeds w (w.visit u rest)
  | skip {w : Walk} {u : LinkUnit} {rest : List LinkUnit} (hc : w.state.chain = [])
      (hq : w.queue = u :: rest) (hu : u ∈ w.state.order) :
      Move policy seeds w { w with queue := rest }
  | begin {w : Walk} {u : LinkUnit} {rest : List LinkUnit} (hc : w.state.chain = [])
      (hq : w.queue = u :: rest) (hu : u ∉ w.state.order) :
      Move policy seeds w { w with queue := rest, state := { w.state with chain := [u] } }

/-- The ways in which a walk fails, with the walk that is left behind. -/
inductive Fault (policy : Policy) (seeds : List Symbol) : Walk → LinkError → Walk → Prop
  | seed {w : Walk} {name : Symbol} (hname : name ∈ seeds)
      (hdef : (w.state.resolve policy name).1 = .undefined) :
      Fault policy seeds w (.undefinedSymbol name)
        { w with state := (w.state.resolve policy name).2 }
  | dep {w : Walk} {u : LinkUnit} {d : Symbol} (hu : u ∈ w.state.order)
      (hd : w.state.dep? u = some d)
      (hdef : ((w.dropDep u).state.resolve policy d).1 = .undefined) :
      Fault policy seeds w (.undefinedSymbol d)
        { w with state := ((w.dropDep u).state.resolve policy d).2 }
  | pre {w : Walk} {u : LinkUnit} {p : Symbol} {rest : List LinkUnit}
      (hc : w.state.chain = u :: rest) (hp : w.state.pre? u = some p)
      (hdef : ((w.state.update u Context.dropPre).resolve policy p).1 = .undefined) :
      Fault policy seeds w (.undefinedSymbol p) { w with state := w.state.followPre policy u p }
  | cycle {w : Walk} {u v : LinkUnit} {p : Symbol} {rest : List LinkUnit}
      (hc : w.state.chain = u :: rest) (hp : w.state.pre? u = some p)
      (hv : w.state.Resolves policy p v) (hchain : v ∈ w.state.chain) :
      Fault policy seeds w (circularReference w.state.chain u v)
        { w with state := w.state.followPre policy u p }

def Moves (policy : Policy) (seeds : List Symbol) : Walk → Walk → Prop :=
  ReflTransGen (Move policy seeds)

variable {policy : Policy} {seeds : List Symbol} {w w' : Walk} {u v : LinkUnit} {k : Cursor}

/-- The units that were visited, and those that will be unless the walk fails. -/
def Covered (w : Walk) (u : LinkUnit) : Prop :=
  u ∈ w.state.order ∨ u ∈ w.state.chain ∨ u ∈ w.queue

theorem covered_await {name : Symbol} :
    (w.await policy name).Covered v ↔ w.Covered v ∨ w.state.Resolves policy name v := by
  unfold Covered
  rw [order_await, chain_await]
  change _ ∨ _ ∨ v ∈ w.queue ++ w.state.waiting policy name ↔ _
  rw [List.mem_append, State.mem_waiting]
  constructor
  · rintro (h | h | h | h)
    · exact .inl (.inl h)
    · exact .inl (.inr (.inl h))
    · exact .inl (.inr (.inr h))
    · exact .inr h.1
  · rintro ((h | h | h) | h)
    · exact .inl h
    · exact .inr (.inl h)
    · exact .inr (.inr (.inl h))
    · by_cases ho : v ∈ w.state.order
      · exact .inl ho
      · exact .inr (.inr (.inr ⟨h, ho⟩))

theorem covered_visit {rest : List LinkUnit} (hc : w.state.chain = u :: rest) :
    (w.visit u rest).Covered v ↔ w.Covered v := by
  unfold Covered
  rw [hc]
  change v ∈ w.state.order ++ [u] ∨ v ∈ rest ∨ v ∈ w.queue ↔ _
  simp only [List.mem_append, List.mem_cons, List.not_mem_nil, or_false]
  constructor
  · rintro ((h | h) | h | h)
    · exact .inl h
    · exact .inr (.inl (.inl h))
    · exact .inr (.inl (.inr h))
    · exact .inr (.inr h)
  · rintro (h | (h | h) | h)
    · exact .inl (.inl h)
    · exact .inl (.inr h)
    · exact .inr (.inl h)
    · exact .inr (.inr h)

theorem Move.covered (h : Move policy seeds w w') (hv : w.Covered v) : w'.Covered v := by
  cases h with
  | seed => exact covered_await.2 (.inl hv)
  | dep => exact covered_await.2 (.inl hv)
  | @pass u p =>
    unfold Covered
    rw [State.order_followPre, State.chain_followPre]
    exact hv
  | @descend u x p =>
    unfold Covered
    dsimp only
    rw [State.order_followPre]
    exact hv.imp_right (.imp_left (List.mem_cons_of_mem _))
  | visit hc => exact (covered_visit hc).2 hv
  | @skip u rest hc hq hu =>
    rcases hv with hv | hv | hv
    · exact .inl hv
    · exact .inr (.inl hv)
    · rcases List.mem_cons.1 (hq ▸ hv) with rfl | hv
      · exact .inl hu
      · exact .inr (.inr hv)
  | @begin u rest hc hq hu =>
    rcases hv with hv | hv | hv
    · exact .inl hv
    · rw [hc] at hv
      cases hv
    · rcases List.mem_cons.1 (hq ▸ hv) with rfl | hv
      · exact .inr (.inl List.mem_cons_self)
      · exact .inr (.inr hv)

theorem Moves.covered (h : Moves policy seeds w w') (hv : w.Covered v) : w'.Covered v := by
  induction h with
  | refl => exact hv
  | tail _ hmove ih => exact hmove.covered ih

/-- What a move does to the units in progress and to those visited: nothing, or it takes up a unit that was
neither, or it visits the innermost in progress. -/
theorem Move.trail (h : Move policy seeds w w') :
    w'.state.chain = w.state.chain ∧ w'.state.order = w.state.order ∧ w'.visits = w.visits ∨
      (∃ u, w'.state.chain = u :: w.state.chain ∧ u ∉ w.state.chain ∧ u ∉ w.state.order ∧
        w'.state.order = w.state.order ∧ w'.visits = w.visits) ∨
      ∃ u, w.state.chain = u :: w'.state.chain ∧ w.state.pre? u = none ∧
        w'.state.order = w.state.order ++ [u] ∧ w'.visits = w.visits ++ [u] := by
  cases h with
  | @seed name => exact .inl ⟨chain_await w policy name, order_await w policy name, rfl⟩
  | @dep u d =>
    exact .inl ⟨chain_await (w.dropDep u) policy d, order_await (w.dropDep u) policy d, rfl⟩
  | @pass u p =>
    exact .inl ⟨w.state.chain_followPre policy u p, w.state.order_followPre policy u p, rfl⟩
  | @descend u v p _ _ _ _ hchain horder =>
    exact .inr (.inl ⟨v, rfl, hchain, horder, w.state.order_followPre policy u p, rfl⟩)
  | @visit u rest hc hp => exact .inr (.inr ⟨u, hc, hp, rfl, rfl⟩)
  | skip => exact .inl ⟨rfl, rfl, rfl⟩
  | @begin u rest hc _ hu =>
    exact .inr (.inl ⟨u, by rw [hc], hc ▸ List.not_mem_nil, hu, rfl, rfl⟩)

theorem Move.order_subset (h : Move policy seeds w w') (hu : u ∈ w.state.order) :
    u ∈ w'.state.order := by
  rcases h.trail with ⟨-, ho, -⟩ | ⟨v, -, -, -, ho, -⟩ | ⟨v, -, -, ho, -⟩ <;> rw [ho]
  · exact hu
  · exact hu
  · exact List.mem_append_left _ hu

theorem Move.cursor (h : Move policy seeds w w') (v : LinkUnit) :
    w'.state.cursor? v = w.state.cursor? v ∨
      w.state.cursor? v = none ∧ w'.state.cursor? v = some ⟨v.pres, policy.depsOf v⟩ ∨
      (∃ p ps ds, w.state.cursor? v = some ⟨p :: ps, ds⟩ ∧ w'.state.cursor? v = some ⟨ps, ds⟩) ∨
      ∃ d ps ds, w.state.cursor? v = some ⟨ps, d :: ds⟩ ∧ w'.state.cursor? v = some ⟨ps, ds⟩ ∧
        v ∈ w.state.order ∧ w' = (w.dropDep v).await policy d ∧
        ((w.dropDep v).state.resolve policy d).1 ≠ .undefined := by
  have hfollow : ∀ u p, w.state.pre? u = some p →
      (w.state.followPre policy u p).cursor? v = w.state.cursor? v ∨
        w.state.cursor? v = none ∧
          (w.state.followPre policy u p).cursor? v = some ⟨v.pres, policy.depsOf v⟩ ∨
        ∃ p' ps ds, w.state.cursor? v = some ⟨p' :: ps, ds⟩ ∧
          (w.state.followPre policy u p).cursor? v = some ⟨ps, ds⟩ := by
    intro u p hp
    by_cases hvu : v = u
    · subst hvu
      obtain ⟨ps, ds, hk⟩ := State.exists_cursor_of_pre? hp
      exact .inr (.inr ⟨p, ps, ds, hk, State.cursor?_followPre hk⟩)
    · exact (State.cursor?_followPre_of_ne hvu).imp_right .inl
  cases h with
  | @seed name =>
    exact (w.state.cursor?_resolve policy name v).imp_right fun h ↦ .inl h.2
  | @dep u d hu hd hdef =>
    by_cases hvu : v = u
    · subst hvu
      obtain ⟨ps, ds, hk⟩ := State.exists_cursor_of_dep? hd
      have hk' : ((w.dropDep v).await policy d).state.cursor? v = some ⟨ps, ds⟩ :=
        State.cursor?_resolve_of_some (State.cursor?_dropDep hk)
      exact .inr (.inr (.inr ⟨d, ps, ds, hk, hk', hu, rfl, hdef⟩))
    · have hv := (w.dropDep u).state.cursor?_resolve policy d v
      have hsame : (w.dropDep u).state.cursor? v = w.state.cursor? v := State.cursor?_dropDep_of_ne hvu
      rw [hsame] at hv
      exact hv.imp_right fun h ↦ .inl h.2
  | @pass u p _ _ hp => exact (hfollow u p hp).imp_right (.imp_right .inl)
  | @descend u x p _ _ hp => exact (hfollow u p hp).imp_right (.imp_right .inl)
  | visit => exact .inl rfl
  | skip => exact .inl rfl
  | begin => exact .inl rfl

end Walk

end LinkOrder
