import LinkOrder.Proofs.Tally

namespace LinkOrder

namespace Walk

variable {policy policy' : Policy} {seeds : List Symbol} {w w' w₁ : Walk} {u : LinkUnit} {name p : Symbol}
  {e : LinkError} {rest : List LinkUnit} {s t : State}

structure Grows (w w' : Walk) : Prop where
  visits : w.visits <+: w'.visits
  unresolved : ∀ name ∈ w.state.unresolved.getD ∅, name ∈ w'.state.unresolved.getD ∅

theorem Grows.trans (h : Grows w w') (h' : Grows w' w₁) : Grows w w₁ :=
  ⟨h.visits.trans h'.visits, fun name hname ↦ h'.unresolved name (h.unresolved name hname)⟩

theorem Moves.grows (h : Moves policy seeds w w') : Grows w w' := by
  constructor
  · induction h with
    | refl => exact List.prefix_refl _
    | tail _ hmove ih =>
      rcases hmove.trail with ⟨-, -, hv⟩ | ⟨u, -, -, -, -, hv⟩ | ⟨u, -, -, -, hv⟩ <;> rw [hv]
      · exact ih
      · exact ih
      · exact ih.trans (List.prefix_append _ _)
  · intro name hname
    obtain ⟨N, hN⟩ := h.tally
    exact (hN.unresolved name).2 (.inl hname)

theorem Fault.grows (h : Fault policy seeds w e w') : Grows w w' := by
  constructor
  · exact ⟨[], by rw [List.append_nil, visits_of_fault h]⟩
  · intro name hname
    obtain ⟨N, hN⟩ := h.tally
    exact (hN.unresolved name).2 (.inl hname)

theorem Ends.grows {r : Option LinkError × Walk} (h : Ends policy seeds w r) : Grows w r.2 := by
  rcases r with ⟨_ | e, w'⟩
  · exact Moves.grows h
  · obtain ⟨w₁, hmoves, hfault⟩ := h
    exact hmoves.grows.trans hfault.grows

theorem grows_run (w : Walk) (policy : Policy) :
    w.visits <+: (w.run policy).visits ∧
      ∀ name ∈ w.state.unresolved.getD ∅, name ∈ (w.run policy).state.unresolved.getD ∅ := by
  obtain ⟨w₁, hsteps, ⟨-, hrun⟩ | ⟨e, w₂, hfail, hrun⟩⟩ := run_steps w policy <;> rw [hrun]
  · have hgrows := (moves_of_steps [] hsteps).grows
    exact ⟨hgrows.visits, hgrows.unresolved⟩
  · have hend : Ends policy [] w₁ (some e, w₂) := ends_of_fail hfail
    have hgrows := (moves_of_steps [] hsteps).grows.trans hend.grows
    exact ⟨hgrows.visits, hgrows.unresolved⟩

/-- Two walks in step: what waits in the second waits in the first, and behind it what waits there alone. -/
structure Abreast (R : State → State → Prop) (Extra : List LinkUnit → Prop) (w w' : Walk) : Prop where
  state : R w.state w'.state
  queue : ∃ more, Extra more ∧ w.queue = w'.queue ++ more
  visits : w'.visits = w.visits

/-- The first walk ended in `w` with the error `e`, on a symbol that the second has gone past. -/
structure Past (Skips : Symbol → State → Prop) (e : LinkError) (w w' : Walk) : Prop where
  symbol : ∃ name, e = .undefinedSymbol name ∧ Skips name w'.state
  visits : w.visits <+: w'.visits

inductive PairAbreast (R : State → State → Prop) (Skips : Symbol → State → Prop) (Extra : List LinkUnit → Prop) :
    Option LinkError × Walk → Option LinkError × Walk → Prop
  | same {e : Option LinkError} {w w' : Walk} : Abreast R Extra w w' → PairAbreast R Skips Extra (e, w) (e, w')
  | past {e : LinkError} {w : Walk} {r : Option LinkError × Walk} :
      Past Skips e w r.2 → PairAbreast R Skips Extra (some e, w) r

inductive StepAbreast (R : State → State → Prop) (Skips : Symbol → State → Prop) (Extra : List LinkUnit → Prop) :
    Step → Step → Prop
  | next {w w' : Walk} : Abreast R Extra w w' → StepAbreast R Skips Extra (.next w) (.next w')
  | fail {w w' : Walk} (e : LinkError) : Abreast R Extra w w' → StepAbreast R Skips Extra (.fail e w) (.fail e w')
  | done : StepAbreast R Skips Extra .done .done
  | past {e : LinkError} {w w' : Walk} : Past Skips e w w' → StepAbreast R Skips Extra (.fail e w) (.next w')
  | pastFail {e e' : LinkError} {w w' : Walk} :
      Past Skips e w w' → StepAbreast R Skips Extra (.fail e w) (.fail e' w')
  | early {x : Step} {more : List LinkUnit} : Extra more → more ≠ [] → StepAbreast R Skips Extra x .done

variable {R : State → State → Prop} {Skips : Symbol → State → Prop} {Extra : List LinkUnit → Prop} {M : Symbol → Prop}

theorem Abreast.prefix_visits (h : Abreast R Extra w w') : w.visits <+: w'.visits :=
  ⟨[], by rw [List.append_nil, h.visits]⟩

theorem Abreast.queue_eq (h : Abreast R (· = []) w w') : w.queue = w'.queue := by
  obtain ⟨more, rfl, hqueue⟩ := h.queue
  rw [hqueue, List.append_nil]

/-- The symbols in `M` are resolved alike in states that `R` relates, unless they are undefined in the first and
skipped in the second. -/
structure Pairing (policy policy' : Policy) (M : Symbol → Prop) (R : State → State → Prop)
    (Skips : Symbol → State → Prop) : Prop where
  chain {s t : State} : R s t → t.chain = s.chain
  order {s t : State} : R s t → t.order = s.order
  with_trail {s t : State} {order order' : List LinkUnit} (h : R s t) (chain : List LinkUnit) :
    order' = order → R { s with chain, order } { t with chain, order := order' }
  resolve {s t : State} {name : Symbol} : R s t → M name →
    (t.resolve policy' name).1 = (s.resolve policy name).1 ∧ R (s.resolve policy name).2 (t.resolve policy' name).2 ∨
      (s.resolve policy name).1 = .undefined ∧ (t.resolve policy' name).1 = .deferred ∧
        Skips name (t.resolve policy' name).2
  skips {s t : State} {name : Symbol} :
    (∀ n ∈ s.unresolved.getD ∅, n ∈ t.unresolved.getD ∅) → Skips name s → Skips name t

namespace Pairing

variable (pair : Pairing policy policy' M R Skips)
include pair

theorem past_grows (h : Past Skips e w w') (hw : Grows w' w₁) : Past Skips e w w₁ := by
  obtain ⟨⟨name, he, hname⟩, hvisits⟩ := h
  exact ⟨⟨name, he, pair.skips hw.unresolved hname⟩, hvisits.trans hw.visits⟩

theorem visit (h : Abreast R Extra w w') (u : LinkUnit) (rest : List LinkUnit) :
    Abreast R Extra (w.visit u rest) (w'.visit u rest) :=
  ⟨pair.with_trail h.state rest (congrArg (· ++ [u]) (pair.order h.state)), h.queue, congrArg (· ++ [u]) h.visits⟩

theorem enqueue (h : Abreast R (· = []) w w') (hname : M name) :
    PairAbreast R Skips (· = []) (w.enqueue policy name) (w'.enqueue policy' name) := by
  rw [enqueue_eq, enqueue_eq]
  rcases pair.resolve h.state hname with ⟨hanswer, hstate⟩ | ⟨hundefined, hdeferred, hskips⟩
  · rw [hanswer]
    split
    · exact .same ⟨hstate, h.queue, h.visits⟩
    · have hwaiting : w'.state.waiting policy' name = w.state.waiting policy name := by
        unfold State.waiting
        rw [hanswer, pair.order h.state]
      refine .same ⟨hstate, ⟨[], rfl, ?_⟩, h.visits⟩
      simp only [Walk.await, h.queue_eq, hwaiting, List.append_nil]
  · rw [if_pos hundefined, hdeferred, if_neg (by simp)]
    exact .past ⟨⟨name, rfl, hskips⟩, h.prefix_visits⟩

theorem enqueueAll {names : List Symbol} (h : Abreast R (· = []) w w') (hnames : ∀ name ∈ names, M name) :
    PairAbreast R Skips (· = []) (w.enqueueAll policy names) (w'.enqueueAll policy' names) := by
  induction names generalizing w w' with
  | nil => exact .same h
  | cons name names ih =>
    have hpair := pair.enqueue h (hnames name List.mem_cons_self)
    unfold Walk.enqueueAll
    generalize w.enqueue policy name = r at hpair
    generalize w'.enqueue policy' name = r' at hpair
    cases hpair with
    | @same e w₁ w₁' hnext =>
      cases e with
      | some e => exact .same hnext
      | none => exact ih hnext fun n hn ↦ hnames n (List.mem_cons_of_mem _ hn)
    | past hpast =>
      rcases r' with ⟨_ | e', w₁'⟩
      · have hend : Ends policy' names w₁' _ := ends_enqueueAll (fun _ h ↦ h) w₁'
        exact .past (pair.past_grows hpast hend.grows)
      · exact .past hpast

section Deps

variable (hdep : ∀ {s t : State}, R s t → t.dep? u = s.dep? u)
  (hdrop : ∀ {s t : State}, R s t → R (s.update u Context.dropDep) (t.update u Context.dropDep))
include hdep hdrop

theorem followDep? {r : Option LinkError × Walk} (h : Abreast R (· = []) w w')
    (hdeps : ∀ k, w.state.cursor? u = some k → ∀ d ∈ k.deps, M d) (hr : w.followDep? policy u = some r) :
    ∃ r', w'.followDep? policy' u = some r' ∧ PairAbreast R Skips (· = []) r r' := by
  obtain ⟨d, hd, rfl⟩ := Option.map_eq_some_iff.1 hr
  obtain ⟨ps, ds, hk⟩ := State.exists_cursor_of_dep? hd
  have hdropped : Abreast R (· = []) (w.dropDep u) (w'.dropDep u) := ⟨hdrop h.state, h.queue, h.visits⟩
  exact ⟨_, Option.map_eq_some_iff.2 ⟨d, (hdep h.state).trans hd, rfl⟩,
    pair.enqueue hdropped (hdeps _ hk d List.mem_cons_self)⟩

theorem followDeps (h : Abreast R (· = []) w w') (hu : u ∈ w.state.order)
    (hdeps : ∀ k, w.state.cursor? u = some k → ∀ d ∈ k.deps, M d) :
    PairAbreast R Skips (· = []) (w.followDeps policy u) (w'.followDeps policy' u) := by
  fun_induction Walk.followDeps w policy u generalizing w' with
  | case1 w hnone =>
    have hnone' : w'.followDep? policy' u = none := by
      rw [Walk.followDep?, Option.map_eq_none_iff, hdep h.state]
      exact Option.map_eq_none_iff.1 hnone
    rw [followDeps_of_none hnone']
    exact .same h
  | case2 w e w₁ hfollow =>
    obtain ⟨r', hfollow', hpair⟩ := pair.followDep? hdep hdrop h hdeps hfollow
    cases hpair with
    | same hend =>
      rw [followDeps_of_error hfollow']
      exact .same hend
    | past hpast =>
      rcases r' with ⟨_ | e', w₁'⟩
      · rw [followDeps_of_some hfollow']
        have hu' : u ∈ w₁'.state.order := by rwa [order_followDep? hfollow', pair.order h.state]
        have hend : Ends policy' [] w₁' _ := ends_followDeps hu'
        exact .past (pair.past_grows hpast hend.grows)
      · rw [followDeps_of_error hfollow']
        exact .past hpast
  | case3 w w₁ hfollow _ ih =>
    obtain ⟨r', hfollow', hpair⟩ := pair.followDep? hdep hdrop h hdeps hfollow
    cases hpair with
    | same hnext =>
      rw [followDeps_of_some hfollow']
      refine ih hnext (order_followDep? hfollow ▸ hu) fun k hk d hd ↦ ?_
      -- The cursor is the old one without its first dependency.
      obtain ⟨d', hd', -, rfl⟩ := await_of_followDep? hfollow
      obtain ⟨ps, ds, hold⟩ := State.exists_cursor_of_dep? hd'
      cases (State.cursor?_resolve_of_some (State.cursor?_dropDep hold)).symm.trans hk
      exact hdeps _ hold d (List.mem_cons_of_mem _ hd)

end Deps

theorem followPre (h : Abreast R Extra w w') (hp : M p)
    (hdrop : R (w.state.update u Context.dropPre) (w'.state.update u Context.dropPre)) :
    StepAbreast R Skips Extra (w.followPre policy u p) (w'.followPre policy' u p) := by
  have hresolve := pair.resolve hdrop hp
  unfold Walk.followPre
  cases hr : (w.state.update u Context.dropPre).resolve policy p with
  | mk answer s =>
    cases hr' : (w'.state.update u Context.dropPre).resolve policy' p with
    | mk answer' s' =>
      rw [hr, hr'] at hresolve
      rcases hresolve with ⟨hanswer, hstate⟩ | ⟨hundefined, hdeferred, hskips⟩
      · cases hanswer
        have hwalk : Abreast R Extra { w with state := s } { w' with state := s' } := ⟨hstate, h.queue, h.visits⟩
        have hchain : s'.chain = s.chain := pair.chain hstate
        have horder : s'.order = s.order := pair.order hstate
        cases answer with
        | undefined => exact .fail _ hwalk
        | deferred => exact .next hwalk
        | resolved v =>
          by_cases hin : v ∈ s.chain
          · simp only [hchain, hin, if_true]
            exact .fail _ hwalk
          · by_cases hord : v ∈ s.order
            · simp only [hchain, horder, hin, hord, if_true, if_false]
              exact .next hwalk
            · simp only [hchain, horder, hin, hord, if_false]
              exact .next ⟨pair.with_trail hstate _ rfl, h.queue, h.visits⟩
      · cases hundefined
        cases hdeferred
        exact .past ⟨⟨p, rfl, hskips⟩, h.prefix_visits⟩

end Pairing

/-- Walks from `s` and from `t` that stay in step. The fields `pre` and `deps` are about the innermost unit in
progress, once the walks have come that far. -/
structure Simulation (policy policy' : Policy) (seeds : List Symbol) (s t : State) (M : Symbol → Prop)
    (R : State → State → Prop) (Skips : Symbol → State → Prop) (Extra : List LinkUnit → Prop) : Prop
    extends Pairing policy policy' M R Skips where
  start : R s t
  seed : ∀ name ∈ seeds, M name
  extra : Extra []
  pre {w w' : Walk} {u : LinkUnit} {rest : List LinkUnit} (hw : Moves policy seeds ⟨s, [], []⟩ w)
    (hw' : Moves policy' seeds ⟨t, [], []⟩ w') (h : Abreast R Extra w w') (hc : w.state.chain = u :: rest) :
    w'.state.pre? u = w.state.pre? u ∧ ∀ p, w.state.pre? u = some p →
      M p ∧ R (w.state.update u Context.dropPre) (w'.state.update u Context.dropPre)
  deps {w w' : Walk} {u : LinkUnit} {rest : List LinkUnit} (hw : Moves policy seeds ⟨s, [], []⟩ w)
    (hw' : Moves policy' seeds ⟨t, [], []⟩ w') (h : Abreast R Extra w w') (hc : w.state.chain = u :: rest) :
    PairAbreast R Skips Extra ((w.visit u rest).followDeps policy u) ((w'.visit u rest).followDeps policy' u)

end Walk

/-- How two traversals in step end: alike, or the first failed on a symbol that the second went past, or the second was
over before the first. -/
inductive Outcome.Abreast (R : State → State → Prop) (Skips : Symbol → State → Prop) (Extra : List LinkUnit → Prop) :
    Outcome → Outcome → Prop
  | same {visits : List LinkUnit} {error : Option LinkError} {s t : State} :
      R s t → Abreast R Skips Extra ⟨visits, error, s⟩ ⟨visits, error, t⟩
  | past {o o' : Outcome} {name : Symbol} : o.error = some (.undefinedSymbol name) → Skips name o'.state →
      o.visits <+: o'.visits → Abreast R Skips Extra o o'
  | early {o o' : Outcome} {more : List LinkUnit} : Extra more → more ≠ [] → o'.error = none →
      o'.visits <+: o.visits → Abreast R Skips Extra o o'

namespace Walk.Simulation

variable {policy policy' : Policy} {s t : State} {M : Symbol → Prop} {R : State → State → Prop}
  {Skips : Symbol → State → Prop} {Extra : List LinkUnit → Prop} {w w' : Walk} {e : LinkError} {seeds : List Symbol}

section

variable (sim : Simulation policy policy' seeds s t M R Skips Extra)
include sim

theorem step (hw : Moves policy seeds ⟨s, [], []⟩ w) (hw' : Moves policy' seeds ⟨t, [], []⟩ w')
    (h : Abreast R Extra w w') : StepAbreast R Skips Extra (w.step policy) (w'.step policy') := by
  unfold Walk.step
  rw [sim.chain h.state]
  split
  · next u rest hc =>
    obtain ⟨hpre, hdrop⟩ := sim.pre hw hw' h hc
    rw [hpre]
    split
    · next p hp => exact sim.followPre h (hdrop p hp).1 (hdrop p hp).2
    · have hdeps := sim.deps hw hw' h hc
      generalize (w.visit u rest).followDeps policy u = r at hdeps
      generalize (w'.visit u rest).followDeps policy' u = r' at hdeps
      cases hdeps with
      | @same e w₁ w₁' hend =>
        cases e with
        | some e => exact .fail e hend
        | none => exact .next hend
      | past hpast =>
        rcases r' with ⟨_ | e', w₁'⟩
        · exact .past hpast
        · exact .pastFail hpast
  · obtain ⟨more, hmore, hqueue⟩ := h.queue
    rw [hqueue]
    cases hq : w'.queue with
    | nil =>
      cases more with
      | nil => exact .done
      | cons u rest => exact .early hmore (List.cons_ne_nil u rest)
    | cons u rest =>
      have horder := sim.order h.state
      by_cases hu : u ∈ w.state.order
      · simp only [List.cons_append, horder, hu, if_true]
        exact .next ⟨h.state, ⟨more, hmore, rfl⟩, h.visits⟩
      · simp only [List.cons_append, horder, hu, if_false]
        exact .next ⟨sim.with_trail h.state _ rfl, ⟨more, hmore, rfl⟩, h.visits⟩

theorem past_run (h : Past Skips e w w') {o : Outcome} (herror : o.error = some e) (hvisits : o.visits = w.visits) :
    o.Abreast R Skips Extra (w'.run policy') := by
  obtain ⟨⟨name, rfl, hname⟩, hle⟩ := h
  obtain ⟨hrun, hcollected⟩ := grows_run w' policy'
  exact .past herror (sim.skips hcollected hname) (hvisits ▸ hle.trans hrun)

theorem run (hw : Moves policy seeds ⟨s, [], []⟩ w) (hw' : Moves policy' seeds ⟨t, [], []⟩ w')
    (h : Abreast R Extra w w') : (w.run policy).Abreast R Skips Extra (w'.run policy') := by
  induction hn : w.weight using Nat.strongRecOn generalizing w w' with
  | ind n ih =>
    have hstep := sim.step hw hw' h
    generalize hx : w.step policy = x at hstep
    generalize hx' : w'.step policy' = x' at hstep
    cases hstep with
    | next hlater =>
      rw [run_of_next hx, run_of_next hx']
      exact ih _ (hn ▸ weight_step_lt hx) (hw.trans (moves_of_next _ hx)) (hw'.trans (moves_of_next _ hx')) hlater rfl
    | fail e hend =>
      rw [run_of_fail hx, run_of_fail hx', hend.visits]
      exact .same (sim.with_trail hend.state [] (sim.order hend.state))
    | done =>
      rw [run_of_done hx, run_of_done hx', h.visits]
      exact .same h.state
    | past hpast =>
      rw [run_of_fail hx, run_of_next hx']
      exact sim.past_run hpast rfl rfl
    | @pastFail e e' w₁ w₁' hpast =>
      obtain ⟨⟨name, rfl, hname⟩, hle⟩ := hpast
      rw [run_of_fail hx, run_of_fail hx']
      exact .past rfl (sim.skips (s := w₁'.state) (fun _ h ↦ h) hname) hle
    | early hmore hne =>
      rw [run_of_done hx']
      exact .early hmore hne rfl (h.visits ▸ (grows_run w policy).1)

end

theorem traverse {start : Option (List Symbol)} (sim : Simulation policy policy' (s.seeds policy start) s t M R Skips Extra)
    (hseeds : t.seeds policy' start = s.seeds policy start) :
    (s.traverse policy start).Abreast R Skips Extra (t.traverse policy' start) := by
  have hstart : Abreast R (· = []) ⟨s, [], []⟩ ⟨t, [], []⟩ := ⟨sim.start, ⟨[], rfl, rfl⟩, rfl⟩
  have hpair := sim.enqueueAll hstart sim.seed
  unfold State.traverse
  rw [hseeds]
  cases he : Walk.enqueueAll ⟨s, [], []⟩ policy (s.seeds policy start) with
  | mk e w =>
    cases he' : Walk.enqueueAll ⟨t, [], []⟩ policy' (s.seeds policy start) with
    | mk e' w' =>
      rw [he, he'] at hpair
      cases hpair with
      | same hend =>
        cases e with
        | some e => exact .same hend.state
        | none =>
          have hwalk : Abreast R Extra w w' := by
            refine ⟨hend.state, ⟨[], sim.extra, ?_⟩, hend.visits⟩
            rw [List.append_nil, hend.queue_eq]
          exact sim.run (moves_of_enqueueAll he) (moves_of_enqueueAll he') hwalk
      | past hpast =>
        have hvisits := visits_enqueueAll ⟨s, [], []⟩ policy (s.seeds policy start)
        rw [he] at hvisits
        cases e' with
        | some e' =>
          obtain ⟨⟨name, rfl, hname⟩, -⟩ := hpast
          exact .past rfl hname (List.prefix_refl _)
        | none => exact sim.past_run hpast rfl hvisits.symm

end Walk.Simulation

end LinkOrder
