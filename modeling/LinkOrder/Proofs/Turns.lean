import LinkOrder.Proofs.GraphAgreement

namespace LinkOrder

/-- A reference of a unit, told by its place in the unit's list. -/
structure Reference where
  unit : LinkUnit
  kind : EdgeKind
  index : Nat
  deriving DecidableEq

def Reference.symbol? (r : Reference) : Option Symbol := (r.unit.refs r.kind)[r.index]?

inductive Act
  /-- A symbol is resolved, for a reference or else as a seed. -/
  | resolve (reference : Option Reference) (name : Symbol)
  /-- A unit is taken into progress. -/
  | push (u : LinkUnit)
  deriving DecidableEq

namespace Act

def name? : Act → Option Symbol
  | resolve _ name => some name
  | push _ => none

def seed? : Act → Option Symbol
  | resolve none name => some name
  | _ => none

def reference? : Act → Option Reference
  | resolve reference _ => reference
  | push _ => none

def pushed? : Act → Option LinkUnit
  | resolve _ _ => none
  | push u => some u

end Act

structure Progress where
  /-- The seeds still to be resolved. -/
  seeds : List Symbol
  walk : Walk
  /-- The unit visited last, as long as its dependencies are being followed. -/
  leaving : Option LinkUnit := none

inductive Turn
  | next (acts : List Act) (t : Progress)
  | stop (acts : List Act) (o : Outcome)

/-- The reference of `u` of that kind that is followed next: as many were taken off its cursor. -/
def State.nextRef (s : State) (u : LinkUnit) (kind : EdgeKind) : Reference :=
  ⟨u, kind, (u.refs kind).length - (s.cursor? u).elim 0 fun k ↦ (k.refs kind).length⟩

def Walk.breakOff (w : Walk) (e : LinkError) : Outcome := ⟨w.visits, some e, { w.state with chain := [] }⟩

namespace Progress

def resolveSeed (t : Progress) (policy : Policy) (name : Symbol) (seeds : List Symbol) : Turn :=
  match t.walk.enqueue policy name with
  | (some e, w) => .stop [.resolve none name] ⟨[], some e, w.state⟩
  | (none, w) => .next [.resolve none name] { t with seeds, walk := w }

def followDep (t : Progress) (policy : Policy) (u : LinkUnit) (d : Symbol) : Turn :=
  let act := Act.resolve (some (t.walk.state.nextRef u .dep)) d
  match (t.walk.dropDep u).enqueue policy d with
  | (some e, w) => .stop [act] (w.breakOff e)
  | (none, w) => .next [act] { t with walk := w }

def followPre (t : Progress) (policy : Policy) (u : LinkUnit) (p : Symbol) : Turn :=
  let act := Act.resolve (some (t.walk.state.nextRef u .pre)) p
  match (t.walk.state.update u Context.dropPre).resolve policy p with
  | (.undefined, s) => .stop [act] ({ t.walk with state := s }.breakOff (.undefinedSymbol p))
  | (.deferred, s) => .next [act] { t with walk := { t.walk with state := s } }
  | (.resolved v, s) =>
    if v ∈ s.chain then .stop [act] ({ t.walk with state := s }.breakOff (circularReference s.chain u v))
    else if v ∈ s.order then .next [act] { t with walk := { t.walk with state := s } }
    else .next [act, .push v] { t with walk := { t.walk with state := { s with chain := v :: s.chain } } }

/-- One turn of a traversal: the next seed, then the next dependency of the unit just visited, then the next
prerequisite of the innermost unit in progress or the visit of it, then the next unit that waits. -/
def turn (t : Progress) (policy : Policy) : Turn :=
  match t.seeds with
  | name :: seeds => t.resolveSeed policy name seeds
  | [] =>
    match t.leaving with
    | some u =>
      match t.walk.state.dep? u with
      | some d => t.followDep policy u d
      | none => .next [] { t with leaving := none }
    | none =>
      match t.walk.state.chain with
      | u :: chain =>
        match t.walk.state.pre? u with
        | some p => t.followPre policy u p
        | none => .next [] { t with walk := t.walk.visit u chain, leaving := some u }
      | [] =>
        match t.walk.queue with
        | [] => .stop [] ⟨t.walk.visits, none, t.walk.state⟩
        | u :: queue =>
          if u ∈ t.walk.state.order then .next [] { t with walk := { t.walk with queue } }
          else
            .next [.push u]
              { t with walk := { t.walk with queue, state := { t.walk.state with chain := [u] } } }

def weight (t : Progress) : Nat := 6 * t.seeds.length + 2 * t.walk.weight + t.leaving.toList.length

end Progress

/-- What a turn does to a walk, with the acts that say so. -/
inductive Walk.Does (policy : Policy) (w : Walk) : List Act → Walk → Prop
  | nothing (queue : List LinkUnit) : Does policy w [] { w with queue }
  | visit {u : LinkUnit} {chain : List LinkUnit} (hc : w.state.chain = u :: chain) :
      Does policy w [] (w.visit u chain)
  | begin {u : LinkUnit} (queue : List LinkUnit) (hc : w.state.chain = []) (hu : u ∉ w.state.order) :
      Does policy w [.push u] { w with queue, state := { w.state with chain := [u] } }
  | seed (name : Symbol) (queue : List LinkUnit) :
      Does policy w [.resolve none name] { w with queue, state := (w.state.resolve policy name).2 }
  | dep {u : LinkUnit} {d : Symbol} (hd : w.state.dep? u = some d) (queue : List LinkUnit) :
      Does policy w [.resolve (some (w.state.nextRef u .dep)) d]
        { w with queue, state := ((w.dropDep u).state.resolve policy d).2 }
  | pre {u : LinkUnit} {p : Symbol} (hp : w.state.pre? u = some p) :
      Does policy w [.resolve (some (w.state.nextRef u .pre)) p]
        { w with state := w.state.followPre policy u p }
  | descend {u v : LinkUnit} {p : Symbol} (hp : w.state.pre? u = some p) (hchain : v ∉ w.state.chain)
      (horder : v ∉ w.state.order) :
      Does policy w [.resolve (some (w.state.nextRef u .pre)) p, .push v]
        { w with state := { w.state.followPre policy u p with chain := v :: w.state.chain } }

def Turn.Told (policy : Policy) (t : Progress) : Turn → Prop
  | next acts t' => t.walk.Does policy acts t'.walk ∧ t.seeds = acts.filterMap Act.seed? ++ t'.seeds ∧
      t'.weight < t.weight
  | stop acts o => ∃ w chain, t.walk.Does policy acts w ∧ o.state = { w.state with chain } ∧
      acts.filterMap Act.seed? <+: t.seeds

namespace Progress

variable {t t' : Progress} {policy : Policy} {u : LinkUnit} {name p d : Symbol} {seeds : List Symbol}
  {did did' : List Act} {o : Outcome} {n : Nat}

theorem weight_lt_of_walk {w : Walk} (h : w.weight < t.walk.weight) : weight { t with walk := w } < t.weight := by
  simp only [weight]
  omega

theorem told_resolveSeed (h : t.seeds = name :: seeds) : (t.resolveSeed policy name seeds).Told policy t := by
  have hweight := t.walk.weight_enqueue_le policy name
  unfold resolveSeed
  rw [Walk.enqueue_eq] at hweight ⊢
  split at hweight
  · next hdef =>
    rw [if_pos hdef]
    refine ⟨_, _, .seed name t.walk.queue, rfl, ?_⟩
    rw [h]
    exact ⟨seeds, rfl⟩
  · next hdef =>
    rw [if_neg hdef]
    refine ⟨.seed name _, h, ?_⟩
    dsimp only at hweight
    simp only [weight, h, List.length_cons]
    omega

theorem told_followDep (hseeds : t.seeds = []) (hd : t.walk.state.dep? u = some d) :
    (t.followDep policy u d).Told policy t := by
  have hweight {e : Option LinkError} {w : Walk} (h : (t.walk.dropDep u).enqueue policy d = (e, w)) :
      w.weight < t.walk.weight := by
    have hfollow : t.walk.followDep? policy u = some (e, w) := by
      rw [Walk.followDep?, hd]
      exact congrArg some h
    exact Walk.weight_followDep?_lt hfollow
  unfold followDep
  split
  · next e w heq =>
    rw [Walk.enqueue_eq] at heq
    split at heq <;> cases heq
    exact ⟨_, _, .dep hd t.walk.queue, rfl, List.nil_prefix⟩
  · next w heq =>
    have hlt := hweight heq
    obtain ⟨-, rfl⟩ := Walk.await_of_enqueue heq
    exact ⟨.dep hd _, by simp [hseeds, Act.seed?], weight_lt_of_walk hlt⟩

theorem followPre_eq (t : Progress) (policy : Policy) (u : LinkUnit) (p : Symbol) :
    (∃ e w, t.walk.followPre policy u p = .fail e w ∧
        w = { t.walk with state := t.walk.state.followPre policy u p } ∧
        t.followPre policy u p = .stop [.resolve (some (t.walk.state.nextRef u .pre)) p] (w.breakOff e)) ∨
      (∃ w, t.walk.followPre policy u p = .next w ∧
        w = { t.walk with state := t.walk.state.followPre policy u p } ∧
        t.followPre policy u p = .next [.resolve (some (t.walk.state.nextRef u .pre)) p] { t with walk := w }) ∨
      ∃ w v, t.walk.followPre policy u p = .next w ∧ v ∉ t.walk.state.chain ∧ v ∉ t.walk.state.order ∧
        w = { t.walk with
          state := { t.walk.state.followPre policy u p with chain := v :: t.walk.state.chain } } ∧
        t.followPre policy u p =
          .next [.resolve (some (t.walk.state.nextRef u .pre)) p, .push v] { t with walk := w } := by
  have hchain := t.walk.state.chain_followPre policy u p
  have horder := t.walk.state.order_followPre policy u p
  unfold followPre Walk.followPre
  unfold State.followPre at hchain horder ⊢
  generalize (t.walk.state.update u Context.dropPre).resolve policy p = x at hchain horder ⊢
  obtain ⟨r, s⟩ := x
  cases r with
  | undefined => exact .inl ⟨_, _, rfl, rfl, rfl⟩
  | deferred => exact .inr (.inl ⟨_, rfl, rfl, rfl⟩)
  | resolved v =>
    dsimp only at hchain horder ⊢
    rw [← hchain, ← horder]
    split
    · exact .inl ⟨_, _, rfl, rfl, rfl⟩
    · next hnew =>
      split
      · exact .inr (.inl ⟨_, rfl, rfl, rfl⟩)
      · next hunvisited => exact .inr (.inr ⟨_, v, rfl, hnew, hunvisited, rfl, rfl⟩)

theorem told_followPre (hseeds : t.seeds = []) (hp : t.walk.state.pre? u = some p) :
    (t.followPre policy u p).Told policy t := by
  rcases t.followPre_eq policy u p with ⟨e, w, -, rfl, heq⟩ | ⟨w, hnext, rfl, heq⟩ |
    ⟨w, v, hnext, hchain, horder, rfl, heq⟩ <;> rw [heq]
  · exact ⟨_, _, .pre hp, rfl, List.nil_prefix⟩
  · have hlt := Walk.weight_followPre_lt hp hnext
    exact ⟨.pre hp, by simp [hseeds, Act.seed?], weight_lt_of_walk hlt⟩
  · have hlt := Walk.weight_followPre_lt hp hnext
    exact ⟨.descend hp hchain horder, by simp [hseeds, Act.seed?], weight_lt_of_walk hlt⟩

theorem told_turn (t : Progress) (policy : Policy) : (t.turn policy).Told policy t := by
  unfold turn
  split
  · next name seeds hseeds => exact told_resolveSeed hseeds
  · next hseeds =>
    split
    · next u hu =>
      split
      · next d hd => exact told_followDep hseeds hd
      · refine ⟨.nothing _, by simp [hseeds], ?_⟩
        simp [weight, hu]
    · next hu =>
      split
      · next u chain hc =>
        split
        · next p hp => exact told_followPre hseeds hp
        · refine ⟨.visit hc, by simp [hseeds], ?_⟩
          have hr : (t.walk.visit u chain).state.remaining = t.walk.state.remaining := rfl
          simp only [weight, Walk.weight, hr, hu, hc]
          simp [Walk.visit]
          omega
      · next hc =>
        split
        · exact ⟨_, _, .nothing t.walk.queue, rfl, List.nil_prefix⟩
        · next u queue hq =>
          split
          · refine ⟨.nothing queue, by simp [hseeds], weight_lt_of_walk ?_⟩
            simp only [Walk.weight, hq, List.length_cons]
            omega
          · next hunvisited =>
            refine ⟨.begin queue hc hunvisited, by simp [hseeds, Act.seed?], weight_lt_of_walk ?_⟩
            have hr : State.remaining { t.walk.state with chain := [u] } = t.walk.state.remaining := rfl
            simp only [Walk.weight, hr, hq, hc, List.length_cons, List.length_nil]
            omega

theorem told_of_eq {x : Turn} (h : t.turn policy = x) : x.Told policy t := h ▸ t.told_turn policy

theorem weight_turn_lt (h : t.turn policy = .next did t') : t'.weight < t.weight := (told_of_eq h).2.2

def acts (t : Progress) (policy : Policy) : List Act :=
  match h : t.turn policy with
  | .stop did _ => did
  | .next did t' =>
    have := weight_turn_lt h
    did ++ t'.acts policy
termination_by t.weight

/-- After `n` turns the traversal is over, with these acts and this outcome. -/
inductive Runs (policy : Policy) : Nat → Progress → List Act → Outcome → Prop
  | stop {t : Progress} {did : List Act} {o : Outcome} (h : t.turn policy = .stop did o) :
      Runs policy 1 t did o
  | next {n : Nat} {t t' : Progress} {did did' : List Act} {o : Outcome}
      (h : t.turn policy = .next did t') (hrest : Runs policy n t' did' o) :
      Runs policy (n + 1) t (did ++ did') o

namespace Runs

theorem acts_eq (h : Runs policy n t did o) : t.acts policy = did := by
  induction h with
  | stop h =>
    rw [Progress.acts]
    split <;> rename_i heq <;> cases h.symm.trans heq
    rfl
  | next h _ ih =>
    rw [Progress.acts]
    split <;> rename_i heq <;> cases h.symm.trans heq
    rw [ih]

theorem le_weight (h : Runs policy n t did o) : n ≤ t.weight + 1 := by
  induction h with
  | stop => omega
  | next h _ ih =>
    have hlt := weight_turn_lt h
    omega

end Runs

/-- Turns lead from `t` to the outcome. -/
def Reaches (policy : Policy) (t : Progress) (o : Outcome) : Prop := ∃ n did, Runs policy n t did o

theorem Reaches.of_stop (h : t.turn policy = .stop did o) : Reaches policy t o := ⟨1, did, .stop h⟩

theorem Reaches.of_next (h : t.turn policy = .next did t') (hrest : Reaches policy t' o) :
    Reaches policy t o := by
  obtain ⟨n, did', hruns⟩ := hrest
  exact ⟨n + 1, did ++ did', .next h hruns⟩

end Progress

open Progress (Reaches)

namespace Walk

variable {policy : Policy} {w w' : Walk} {u : LinkUnit} {e : LinkError} {o : Outcome}

def DepsReach (policy : Policy) (o : Outcome) : Option LinkError × Walk → Prop
  | (some e, w) => o = w.breakOff e
  | (none, w) => Reaches policy ⟨[], w, none⟩ o

theorem reaches_followDeps (h : DepsReach policy o (w.followDeps policy u)) :
    Reaches policy ⟨[], w, some u⟩ o := by
  have hturn {w : Walk} {d : Symbol} (hd : w.state.dep? u = some d) :
      Progress.turn ⟨[], w, some u⟩ policy = Progress.followDep ⟨[], w, some u⟩ policy u d := by
    simp only [Progress.turn, hd]
  fun_induction followDeps w policy u with
  | case1 w hnone =>
    have hd : w.state.dep? u = none := Option.map_eq_none_iff.1 hnone
    have hover : Progress.turn ⟨[], w, some u⟩ policy = .next [] ⟨[], w, none⟩ := by
      simp only [Progress.turn, hd]
    exact .of_next hover h
  | case2 w e w₁ hfollow =>
    obtain ⟨d, hd, heq⟩ := Option.map_eq_some_iff.1 hfollow
    have hstop := hturn hd
    simp only [Progress.followDep, dropDep, heq] at hstop
    cases h
    exact .of_stop hstop
  | case3 w w₁ hfollow _ ih =>
    obtain ⟨d, hd, heq⟩ := Option.map_eq_some_iff.1 hfollow
    have hnext := hturn hd
    simp only [Progress.followDep, dropDep, heq] at hnext
    exact .of_next hnext (ih h)

def StepReaches (policy : Policy) (w : Walk) (o : Outcome) : Step → Prop
  | .next w' => Reaches policy ⟨[], w', none⟩ o
  | .fail e w' => o = w'.breakOff e
  | .done => o = ⟨w.visits, none, w.state⟩

theorem reaches_step (h : StepReaches policy w o (w.step policy)) : Reaches policy ⟨[], w, none⟩ o := by
  unfold step at h
  cases hc : w.state.chain with
  | cons u chain =>
    simp only [hc] at h
    cases hp : w.state.pre? u with
    | some p =>
      simp only [hp] at h
      have hturn : Progress.turn ⟨[], w, none⟩ policy = Progress.followPre ⟨[], w, none⟩ policy u p := by
        simp only [Progress.turn, hc, hp]
      rcases Progress.followPre_eq ⟨[], w, none⟩ policy u p with ⟨e, w', hstep, -, heq⟩ | ⟨w', hstep, -, heq⟩ |
        ⟨w', v, hstep, -, -, -, heq⟩ <;> rw [hstep] at h
      · cases h
        exact .of_stop (hturn.trans heq)
      · exact .of_next (hturn.trans heq) h
      · exact .of_next (hturn.trans heq) h
    | none =>
      simp only [hp] at h
      have hturn : Progress.turn ⟨[], w, none⟩ policy = .next [] ⟨[], w.visit u chain, some u⟩ := by
        simp only [Progress.turn, hc, hp]
      refine .of_next hturn (reaches_followDeps ?_)
      split at h <;> next heq => rw [heq]; exact h
  | nil =>
    simp only [hc] at h
    cases hq : w.queue with
    | nil =>
      simp only [hq] at h
      have hturn : Progress.turn ⟨[], w, none⟩ policy = .stop [] ⟨w.visits, none, w.state⟩ := by
        simp only [Progress.turn, hc, hq]
      cases h
      exact .of_stop hturn
    | cons u queue =>
      simp only [hq] at h
      split at h
      · next hu =>
        have hturn : Progress.turn ⟨[], w, none⟩ policy = .next [] ⟨[], { w with queue }, none⟩ := by
          simp only [Progress.turn, hc, hq, if_pos hu]
        exact .of_next hturn h
      · next hu =>
        have hturn : Progress.turn ⟨[], w, none⟩ policy =
            .next [.push u] ⟨[], { w with queue, state := { w.state with chain := [u] } }, none⟩ := by
          simp only [Progress.turn, hc, hq, if_neg hu]
        exact .of_next hturn h

theorem reaches_run (w : Walk) (policy : Policy) : Reaches policy ⟨[], w, none⟩ (w.run policy) := by
  fun_induction run w policy with
  | case1 w h =>
    apply reaches_step
    rw [h]
    rfl
  | case2 w e w' h =>
    apply reaches_step
    rw [h]
    rfl
  | case3 w w' h _ ih =>
    apply reaches_step
    rw [h]
    exact ih

def SeedsReach (policy : Policy) (o : Outcome) : Option LinkError × Walk → Prop
  | (some e, w) => o = ⟨[], some e, w.state⟩
  | (none, w) => Reaches policy ⟨[], w, none⟩ o

theorem reaches_enqueueAll {names : List Symbol} (h : SeedsReach policy o (w.enqueueAll policy names)) :
    Reaches policy ⟨names, w, none⟩ o := by
  induction names generalizing w with
  | nil => exact h
  | cons name names ih =>
    have hturn : Progress.turn ⟨name :: names, w, none⟩ policy =
        Progress.resolveSeed ⟨name :: names, w, none⟩ policy name names := rfl
    unfold Progress.resolveSeed at hturn
    unfold enqueueAll at h
    split at h
    · next e w' heq =>
      simp only [heq] at hturn
      cases h
      exact .of_stop hturn
    · next w' heq =>
      simp only [heq] at hturn
      exact .of_next hturn (ih h)

end Walk

namespace State

def begin (s : State) (policy : Policy) (start : Option (List Symbol)) : Progress :=
  ⟨s.seeds policy start, ⟨s, [], []⟩, none⟩

def acts (s : State) (policy : Policy) (start : Option (List Symbol)) : List Act :=
  (s.begin policy start).acts policy

theorem reaches_traverse (s : State) (policy : Policy) (start : Option (List Symbol)) :
    Reaches policy (s.begin policy start) (s.traverse policy start) := by
  apply Walk.reaches_enqueueAll
  unfold traverse
  split
  · next e w heq =>
    rw [heq]
    rfl
  · next w heq =>
    rw [heq]
    exact w.reaches_run policy

theorem exists_runs (s : State) (policy : Policy) (start : Option (List Symbol)) :
    ∃ n ≤ 6 * ((s.seeds policy start).length + s.remaining) + 2 * s.chain.length + 1,
      Progress.Runs policy n (s.begin policy start) (s.acts policy start) (s.traverse policy start) := by
  obtain ⟨n, did, hruns⟩ := s.reaches_traverse policy start
  have hacts : s.acts policy start = did := hruns.acts_eq
  refine ⟨n, ?_, hacts ▸ hruns⟩
  have hle := hruns.le_weight
  simp only [begin, Progress.weight, Walk.weight, List.length_nil, Option.toList_none] at hle
  omega

end State

end LinkOrder
