import LinkOrder.Proofs.Moves

namespace LinkOrder

open Relation

namespace Walk

def Steps (policy : Policy) : Walk → Walk → Prop :=
  ReflTransGen fun w w' ↦ w.step policy = .next w'

variable {policy : Policy} {seeds : List Symbol} {w w' : Walk} {u v : LinkUnit} {name p d : Symbol}
  {rest : List LinkUnit} {e : LinkError} {k : Cursor}

theorem enqueue_eq (w : Walk) (policy : Policy) (name : Symbol) :
    w.enqueue policy name =
      if (w.state.resolve policy name).1 = .undefined then
        (some (.undefinedSymbol name), { w with state := (w.state.resolve policy name).2 })
      else (none, w.await policy name) := by
  unfold enqueue await State.waiting
  have ho := w.state.order_resolve policy name
  split
  · next u s heq =>
    rw [heq] at ho ⊢
    simp only at ho
    simp only [ho, reduceCtorEq, if_false]
    split <;> simp
  · next s heq => simp [heq]
  · next s heq => simp [heq]

theorem await_of_enqueue (h : w.enqueue policy name = (none, w')) :
    (w.state.resolve policy name).1 ≠ .undefined ∧ w' = w.await policy name := by
  rw [enqueue_eq] at h
  split at h
  · cases h
  · next hdef =>
    cases h
    exact ⟨hdef, rfl⟩

theorem await_of_followDep? (h : w.followDep? policy u = some (none, w')) :
    ∃ d, w.state.dep? u = some d ∧ ((w.dropDep u).state.resolve policy d).1 ≠ .undefined ∧
      w' = (w.dropDep u).await policy d := by
  obtain ⟨d, hd, heq⟩ := Option.map_eq_some_iff.1 h
  exact ⟨d, hd, await_of_enqueue heq⟩

/-- Moves lead from `w` to where a part of the walk ends, up to the fault if it fails. -/
def Ends (policy : Policy) (seeds : List Symbol) (w : Walk) : Option LinkError × Walk → Prop
  | (none, w') => Moves policy seeds w w'
  | (some e, w') => ∃ w'', Moves policy seeds w w'' ∧ Fault policy seeds w'' e w'

theorem Moves.ends {r : Option LinkError × Walk} (h : Moves policy seeds w w')
    (hr : Ends policy seeds w' r) : Ends policy seeds w r := by
  rcases r with ⟨_ | e, w₂⟩
  · exact ReflTransGen.trans h hr
  · obtain ⟨w₁, h₁, hf⟩ := hr
    exact ⟨w₁, ReflTransGen.trans h h₁, hf⟩

theorem ends_enqueue (hname : name ∈ seeds) : Ends policy seeds w (w.enqueue policy name) := by
  rw [enqueue_eq]
  split
  · next h => exact ⟨w, .refl, .seed hname h⟩
  · next h => exact .single (.seed hname h)

theorem ends_followDep? {r : Option LinkError × Walk} (hu : u ∈ w.state.order)
    (h : w.followDep? policy u = some r) : Ends policy seeds w r := by
  obtain ⟨d, hd, rfl⟩ := Option.map_eq_some_iff.1 h
  change Ends policy seeds w ((w.dropDep u).enqueue policy d)
  rw [enqueue_eq]
  split
  · next hdef => exact ⟨w, .refl, .dep hu hd hdef⟩
  · next hdef => exact .single (.dep hu hd hdef)

theorem ends_enqueueAll {names : List Symbol} (h : ∀ name ∈ names, name ∈ seeds) (w : Walk) :
    Ends policy seeds w (w.enqueueAll policy names) := by
  induction names generalizing w with
  | nil => exact .refl
  | cons name rest ih =>
    have he : Ends policy seeds w (w.enqueue policy name) := ends_enqueue (h name List.mem_cons_self)
    unfold enqueueAll
    split
    · next e w₁ heq => rwa [heq] at he
    · next w₁ heq =>
      rw [heq] at he
      exact Moves.ends he (ih (fun n hn ↦ h n (List.mem_cons_of_mem _ hn)) w₁)

theorem moves_of_enqueueAll (h : w.enqueueAll policy seeds = (none, w')) :
    Moves policy seeds w w' := by
  have hends : Ends policy seeds w (w.enqueueAll policy seeds) := ends_enqueueAll (fun _ h ↦ h) w
  rwa [h] at hends

theorem order_enqueue (w : Walk) (policy : Policy) (name : Symbol) :
    (w.enqueue policy name).2.state.order = w.state.order := by
  rw [enqueue_eq]
  split <;> exact w.state.order_resolve policy name

theorem order_followDep? {r : Option LinkError × Walk} (h : w.followDep? policy u = some r) :
    r.2.state.order = w.state.order := by
  obtain ⟨d, -, rfl⟩ := Option.map_eq_some_iff.1 h
  exact order_enqueue _ policy d

theorem ends_followDeps (hu : u ∈ w.state.order) :
    Ends policy seeds w (w.followDeps policy u) := by
  fun_induction followDeps w policy u with
  | case1 => exact .refl
  | case2 w e w' h => exact ends_followDep? hu h
  | case3 w w' h _ ih =>
    exact Moves.ends (ends_followDep? hu h) (ih (order_followDep? h ▸ hu))

/-- What a step is: one move, or a visit with all that follows from it. -/
def StepEnds (policy : Policy) (seeds : List Symbol) (w : Walk) : Step → Prop
  | .next w' => Move policy seeds w w' ∧ w'.state.order = w.state.order ∨
      ∃ u rest, w.state.chain = u :: rest ∧ w.state.pre? u = none ∧
        (w.visit u rest).followDeps policy u = (none, w')
  | .fail e w' => Fault policy seeds w e w' ∨
      ∃ u rest, w.state.chain = u :: rest ∧ w.state.pre? u = none ∧
        (w.visit u rest).followDeps policy u = (some e, w')
  | .done => w.state.chain = [] ∧ w.queue = []

/-- What becomes of a prerequisite: it is undefined, or leads to nothing new, or closes a cycle, or leads to a
unit that is walked next. -/
theorem followPre_cases (w : Walk) (policy : Policy) (u : LinkUnit) (p : Symbol) :
    ((w.state.update u Context.dropPre).resolve policy p).1 = .undefined ∧
        w.followPre policy u p =
          .fail (.undefinedSymbol p) { w with state := w.state.followPre policy u p } ∨
      ((w.state.update u Context.dropPre).resolve policy p).1 ≠ .undefined ∧
        (∀ v, w.state.Resolves policy p v → v ∈ w.state.order) ∧
        w.followPre policy u p = .next { w with state := w.state.followPre policy u p } ∨
      (∃ v, w.state.Resolves policy p v ∧ v ∈ w.state.chain ∧
        w.followPre policy u p = .fail (circularReference w.state.chain u v)
          { w with state := w.state.followPre policy u p }) ∨
      ∃ v, w.state.Resolves policy p v ∧ v ∉ w.state.chain ∧ v ∉ w.state.order ∧
        w.followPre policy u p = .next
          { w with state := { w.state.followPre policy u p with chain := v :: w.state.chain } } := by
  have hagree := State.Agrees.update Context.dropPre_unit policy w.state u
  have hchain := w.state.chain_followPre policy u p
  have horder := w.state.order_followPre policy u p
  have hres : ∀ v, ((w.state.update u Context.dropPre).resolve policy p).1 = .resolved v ↔
      w.state.Resolves policy p v := fun v ↦ State.resolve_eq_resolved_iff.trans hagree.resolves_iff
  unfold followPre
  split
  · next s heq =>
    have hs : w.state.followPre policy u p = s := congrArg Prod.snd heq
    exact .inl ⟨congrArg Prod.fst heq, by rw [hs]⟩
  · next s heq =>
    have hs : w.state.followPre policy u p = s := congrArg Prod.snd heq
    have hr : ((w.state.update u Context.dropPre).resolve policy p).1 = .deferred := by rw [heq]
    refine .inr (.inl ⟨by rw [hr]; exact Resolution.noConfusion, fun v hv ↦ ?_, by rw [hs]⟩)
    rw [← hres, hr] at hv
    cases hv
  · next v s heq =>
    have hs : w.state.followPre policy u p = s := congrArg Prod.snd heq
    have hr : ((w.state.update u Context.dropPre).resolve policy p).1 = .resolved v := by rw [heq]
    have hv := (hres v).1 hr
    subst hs
    rw [hchain]
    split
    · next hin => exact .inr (.inr (.inl ⟨v, hv, hin, rfl⟩))
    · next hin =>
      split
      · next hord =>
        refine .inr (.inl ⟨by rw [hr]; exact Resolution.noConfusion, fun x hx ↦ ?_, rfl⟩)
        exact hv.unique hx ▸ horder ▸ hord
      · next hord => exact .inr (.inr (.inr ⟨v, hv, hin, horder ▸ hord, rfl⟩))

theorem stepEnds_followPre (hc : w.state.chain = u :: rest) (hp : w.state.pre? u = some p) :
    StepEnds policy seeds w (w.followPre policy u p) := by
  have horder := w.state.order_followPre policy u p
  rcases w.followPre_cases policy u p with ⟨hdef, heq⟩ | ⟨hdef, hv, heq⟩ | ⟨v, hv, hin, heq⟩ |
    ⟨v, hv, hin, hord, heq⟩ <;> rw [heq]
  · exact .inl (.pre hc hp hdef)
  · exact .inl ⟨.pass hc hp hdef hv, horder⟩
  · exact .inl (.cycle hc hp hv hin)
  · exact .inl ⟨.descend hc hp hv hin hord, horder⟩

theorem stepEnds_step (w : Walk) : StepEnds policy seeds w (w.step policy) := by
  unfold step
  split
  · next u rest hc =>
    split
    · next p hp => exact stepEnds_followPre hc hp
    · next hp => split <;> next heq => exact .inr ⟨u, rest, hc, hp, heq⟩
  · next hc =>
    split
    · next hq => exact ⟨hc, hq⟩
    · next u rest hq =>
      split
      · next hu => exact .inl ⟨.skip hc hq hu, rfl⟩
      · next hu => exact .inl ⟨.begin hc hq hu, rfl⟩

theorem stepEnds_of_eq {x : Step} (h : w.step policy = x) : StepEnds policy seeds w x :=
  h ▸ stepEnds_step w

theorem ends_visit {r : Option LinkError × Walk} (hc : w.state.chain = u :: rest)
    (hp : w.state.pre? u = none) (h : (w.visit u rest).followDeps policy u = r) :
    Ends policy seeds w r := by
  have hv : Moves policy seeds w (w.visit u rest) := .single (.visit hc hp)
  have hu : u ∈ (w.visit u rest).state.order := List.mem_append_right _ List.mem_cons_self
  exact h ▸ hv.ends (ends_followDeps hu)

theorem moves_of_next (seeds : List Symbol) (h : w.step policy = .next w') : Moves policy seeds w w' := by
  have hs : StepEnds policy seeds w (.next w') := stepEnds_of_eq h
  rcases hs with ⟨hm, -⟩ | ⟨u, rest, hc, hp, heq⟩
  · exact .single hm
  · exact ends_visit hc hp heq

theorem ends_of_fail (h : w.step policy = .fail e w') : Ends policy seeds w (some e, w') := by
  have hs : StepEnds policy seeds w (.fail e w') := stepEnds_of_eq h
  rcases hs with hf | ⟨u, rest, hc, hp, heq⟩
  · exact ⟨w, .refl, hf⟩
  · exact ends_visit hc hp heq

theorem moves_of_steps (seeds : List Symbol) (h : Steps policy w w') : Moves policy seeds w w' := by
  induction h with
  | refl => exact .refl
  | tail _ hstep ih => exact ReflTransGen.trans ih (moves_of_next seeds hstep)

theorem dep?_followDeps (h : w.followDeps policy u = (none, w')) : w'.state.dep? u = none := by
  fun_induction followDeps w policy u with
  | case1 w hnone =>
    cases h
    exact Option.map_eq_none_iff.1 hnone
  | case2 => cases h
  | case3 w w₁ _ _ ih => exact ih h

theorem order_followDeps (w : Walk) (policy : Policy) (u : LinkUnit) :
    (w.followDeps policy u).2.state.order = w.state.order := by
  fun_induction followDeps w policy u with
  | case1 => rfl
  | case2 w e w' h => exact order_followDep? h
  | case3 w w' h _ ih => exact ih.trans (order_followDep? h)

theorem cursor?_followDeps_of_ne (h : w.followDeps policy u = (none, w')) (hv : v ≠ u)
    (hk : w.state.cursor? v = some k) : w'.state.cursor? v = some k := by
  fun_induction followDeps w policy u with
  | case1 =>
    cases h
    exact hk
  | case2 => cases h
  | case3 w w₁ hfollow _ ih =>
    obtain ⟨d, -, -, rfl⟩ := await_of_followDep? hfollow
    have hk' : (w.dropDep u).state.cursor? v = some k := (State.cursor?_dropDep_of_ne hv).trans hk
    exact ih h (State.cursor?_resolve_of_some hk')

theorem chain_followDeps (h : w.followDeps policy u = (none, w')) :
    w'.state.chain = w.state.chain := by
  fun_induction followDeps w policy u with
  | case1 =>
    cases h
    rfl
  | case2 => cases h
  | case3 w w₁ hfollow _ ih =>
    obtain ⟨d, -, -, rfl⟩ := await_of_followDep? hfollow
    exact (ih h).trans (chain_await (w.dropDep u) policy d)

theorem dep?_of_step (h : w.step policy = .next w') (hu : u ∈ w'.state.order) :
    u ∈ w.state.order ∨ w'.state.dep? u = none := by
  have hs : StepEnds policy [] w (.next w') := stepEnds_of_eq h
  rcases hs with ⟨-, horder⟩ | ⟨v, rest, -, -, heq⟩
  · exact .inl (horder ▸ hu)
  · have horder := order_followDeps (w.visit v rest) policy v
    rw [heq] at horder
    rw [horder] at hu
    rcases List.mem_append.1 hu with hu | hu
    · exact .inl hu
    · exact .inr (List.mem_singleton.1 hu ▸ dep?_followDeps heq)

theorem run_steps (w : Walk) (policy : Policy) :
    ∃ w', Steps policy w w' ∧
      (w'.step policy = .done ∧ w.run policy = ⟨w'.visits, none, w'.state⟩ ∨
        ∃ e w'', w'.step policy = .fail e w'' ∧
          w.run policy = ⟨w''.visits, some e, { w''.state with chain := [] }⟩) := by
  fun_induction run w policy with
  | case1 w h => exact ⟨w, .refl, .inl ⟨h, rfl⟩⟩
  | case2 w e w' h => exact ⟨w, .refl, .inr ⟨e, w', h, rfl⟩⟩
  | case3 w w' h _ ih =>
    obtain ⟨w₁, h₁, hend⟩ := ih
    exact ⟨w₁, .head h h₁, hend⟩

theorem visits_of_fault (h : Fault policy seeds w e w') : w'.visits = w.visits := by
  cases h <;> rfl

theorem visits_enqueueAll (w : Walk) (policy : Policy) (names : List Symbol) :
    (w.enqueueAll policy names).2.visits = w.visits := by
  induction names generalizing w with
  | nil => rfl
  | cons name rest ih =>
    have hv : (w.enqueue policy name).2.visits = w.visits := by
      rw [enqueue_eq]
      split <;> rfl
    unfold enqueueAll
    split
    · next heq => rwa [heq] at hv
    · next w₁ heq =>
      rw [heq] at hv
      exact (ih w₁).trans hv

theorem chain_enqueueAll (w : Walk) (policy : Policy) (names : List Symbol) :
    (w.enqueueAll policy names).2.state.chain = w.state.chain := by
  induction names generalizing w with
  | nil => rfl
  | cons name rest ih =>
    have hc : (w.enqueue policy name).2.state.chain = w.state.chain := by
      rw [enqueue_eq]
      split <;> exact State.chain_resolve _ policy name
    unfold enqueueAll
    split
    · next heq => rwa [heq] at hc
    · next w₁ heq =>
      rw [heq] at hc
      exact (ih w₁).trans hc

end Walk

namespace State

open Walk

variable {s : State} {policy : Policy} {start : Option (List Symbol)} {e : LinkError}

theorem with_chain_nil (h : s.chain = []) : { s with chain := [] } = s := by
  cases s
  cases h
  rfl

theorem traverse_of_ok (h : (s.traverse policy start).error = none) :
    ∃ w₁ w, Walk.enqueueAll ⟨s, [], []⟩ policy (s.seeds policy start) = (none, w₁) ∧
      Steps policy w₁ w ∧ w.state.chain = [] ∧ w.queue = [] ∧
      s.traverse policy start = ⟨w.visits, none, w.state⟩ := by
  unfold traverse at h ⊢
  split at h
  · cases h
  · next w₁ heq =>
    obtain ⟨w, hsteps, ⟨hdone, hrun⟩ | ⟨e, w', -, hrun⟩⟩ := run_steps w₁ policy
    · have hend : StepEnds policy [] w .done := stepEnds_of_eq hdone
      exact ⟨w₁, w, heq, hsteps, hend.1, hend.2, hrun⟩
    · rw [hrun] at h
      cases h

theorem moves_of_ok (h : (s.traverse policy start).error = none) :
    ∃ w, Moves policy (s.seeds policy start) ⟨s, [], []⟩ w ∧ w.state.chain = [] ∧ w.queue = [] ∧
      s.traverse policy start = ⟨w.visits, none, w.state⟩ := by
  obtain ⟨w₁, w, hseed, hsteps, hchain, hqueue, heq⟩ := traverse_of_ok h
  exact ⟨w, .trans (moves_of_enqueueAll hseed) (moves_of_steps _ hsteps), hchain, hqueue, heq⟩

theorem moves_of_error (hs : s.chain = []) (h : (s.traverse policy start).error = some e) :
    ∃ w w', Moves policy (s.seeds policy start) ⟨s, [], []⟩ w ∧
      Fault policy (s.seeds policy start) w e w' ∧
      s.traverse policy start = ⟨w'.visits, some e, { w'.state with chain := [] }⟩ := by
  have hw : Ends policy (s.seeds policy start) ⟨s, [], []⟩ _ := ends_enqueueAll (fun _ h ↦ h) _
  have hvisits := visits_enqueueAll ⟨s, [], []⟩ policy (s.seeds policy start)
  have hchain := chain_enqueueAll ⟨s, [], []⟩ policy (s.seeds policy start)
  unfold traverse at h ⊢
  split at h
  · next e' w' heq =>
    cases h
    rw [heq] at hw hvisits hchain
    obtain ⟨w, hmoves, hf⟩ := hw
    refine ⟨w, w', hmoves, hf, ?_⟩
    dsimp only at hvisits hchain
    rw [hvisits, with_chain_nil (hchain.trans hs)]
  · next w₁ heq =>
    rw [heq] at hw
    obtain ⟨w, hsteps, ⟨-, hrun⟩ | ⟨e', w', hfail, hrun⟩⟩ := run_steps w₁ policy
    · rw [hrun] at h
      cases h
    · rw [hrun] at h
      cases h
      obtain ⟨w'', hmoves, hf⟩ : Ends policy (s.seeds policy start) w (some e, w') := ends_of_fail hfail
      have hw' : Moves policy (s.seeds policy start) ⟨s, [], []⟩ w :=
        ReflTransGen.trans hw (moves_of_steps _ hsteps)
      exact ⟨w'', w', hw'.trans hmoves, hf, hrun⟩

theorem moves_of_traverse (hs : s.chain = []) (policy : Policy) (start : Option (List Symbol)) :
    ∃ w, Moves policy (s.seeds policy start) ⟨s, [], []⟩ w ∧
      (s.traverse policy start).visits = w.visits := by
  cases h : (s.traverse policy start).error with
  | none =>
    obtain ⟨w, hmoves, -, -, heq⟩ := moves_of_ok h
    exact ⟨w, hmoves, by rw [heq]⟩
  | some e =>
    obtain ⟨w, w', hmoves, hf, heq⟩ := moves_of_error hs h
    exact ⟨w, hmoves, by rw [heq, visits_of_fault hf]⟩

end State

end LinkOrder
