import LinkOrder.Proofs.VisitOrder
import Mathlib.Data.List.Chain

namespace LinkOrder

open Relation

theorem Policy.mem_depsOf {policy : Policy} {u : LinkUnit} {d : Symbol} :
    d ∈ policy.depsOf u ↔ policy.inheritanceOnly = false ∧ d ∈ u.deps := by
  unfold depsOf
  cases policy.inheritanceOnly <;> simp

namespace State

variable {s : State} {policy : Policy} {start : Option (List Symbol)} {name : Symbol}

inductive Seed (s : State) (policy : Policy) : Option (List Symbol) → Symbol → Prop
  | given {names : List Symbol} {name : Symbol} : name ∈ names → Seed s policy (some names) name
  | own {u : LinkUnit} {name : Symbol} : policy.inheritanceOnly = false → u ∈ s.units →
      name ∈ u.defs → name ∉ s.extdefs → Seed s policy none name
  | included {start : Option (List Symbol)} {name : Symbol} : policy.exportIncludes = true →
      name ∈ s.includes → Seed s policy start name

theorem mem_seeds : name ∈ s.seeds policy start ↔ s.Seed policy start name := by
  have hown : name ∈ (if policy.inheritanceOnly then [] else s.defNames.filter (· ∉ s.extdefs)) ↔
      policy.inheritanceOnly = false ∧ (∃ u ∈ s.units, name ∈ u.defs) ∧ name ∉ s.extdefs := by
    cases policy.inheritanceOnly <;> simp [defNames]
  have hincl : name ∈ (if policy.exportIncludes then s.includes.toList else []) ↔
      policy.exportIncludes = true ∧ name ∈ s.includes := by
    cases policy.exportIncludes <;> simp
  unfold seeds
  rw [List.mem_append, hincl]
  constructor
  · rintro (h | h)
    · cases start with
      | some names => exact .given h
      | none =>
        obtain ⟨hi, ⟨u, hu, hd⟩, he⟩ := hown.1 h
        exact .own hi hu hd he
    · exact .included h.1 h.2
  · intro h
    cases h with
    | given h => exact .inl h
    | own hi hu hd he => exact .inl (hown.2 ⟨hi, ⟨_, hu, hd⟩, he⟩)
    | included hp hn => exact .inr ⟨hp, hn⟩

/-- The least set of units that holds the owners of seeds and is closed under the references that are
followed. -/
inductive Reached (s : State) (policy : Policy) (start : Option (List Symbol)) : LinkUnit → Prop
  | seed {name : Symbol} {u : LinkUnit} : s.Seed policy start name → s.Resolves policy name u →
      Reached s policy start u
  | pre {u v : LinkUnit} {p : Symbol} : Reached s policy start u → p ∈ u.pres →
      s.Resolves policy p v → Reached s policy start v
  | dep {u v : LinkUnit} {d : Symbol} : Reached s policy start u → policy.inheritanceOnly = false →
      d ∈ u.deps → s.Resolves policy d v → Reached s policy start v

/-- A set of units to which nothing has to be added: all that seeds and followed references of its members
lead to is in it. -/
structure Closed (s : State) (policy : Policy) (start : Option (List Symbol))
    (S : LinkUnit → Prop) : Prop where
  seed : ∀ name, s.Seed policy start name → s.Settled policy S name
  pre : ∀ u, S u → ∀ p ∈ u.pres, s.Settled policy S p
  dep : ∀ u, S u → ∀ d ∈ policy.depsOf u, s.Settled policy S d

theorem Closed.of_reached {S : LinkUnit → Prop} {u : LinkUnit} (h : s.Closed policy start S)
    (hu : s.Reached policy start u) : S u := by
  induction hu with
  | seed hname hr => exact (h.seed _ hname).target _ hr
  | pre _ hp hr ih => exact (h.pre _ ih _ hp).target _ hr
  | dep _ hi hd hr ih => exact (h.dep _ ih _ (Policy.mem_depsOf.2 ⟨hi, hd⟩)).target _ hr

/-- `u` has a prerequisite that leads to `v`. -/
def Requires (s : State) (policy : Policy) (u v : LinkUnit) : Prop :=
  ∃ p ∈ u.pres, s.Resolves policy p v

end State

namespace Walk

/-- What the moves of a walk from a fresh state keep: it stays among the units that are reached, and each unit
in progress is required by the one below it. -/
structure Within (policy : Policy) (s : State) (start : Option (List Symbol)) (w : Walk) : Prop where
  reached : ∀ u, w.Covered u → s.Reached policy start u
  path : w.state.chain.IsChain fun v u ↦ s.Requires policy u v
  pres : ∀ u k, w.state.cursor? u = some k → ∀ p ∈ k.pres, p ∈ u.pres
  deps : ∀ u k, w.state.cursor? u = some k → ∀ d ∈ k.deps, d ∈ policy.depsOf u

variable {policy : Policy} {start : Option (List Symbol)} {seeds : List Symbol} {s : State}
  {w w' : Walk} {u : LinkUnit}

theorem Within.reached_move (hw : Within policy s start w) (ho : Orderly policy s w)
    (h : Move policy (s.seeds policy start) w w') (hu : w'.Covered u) :
    s.Reached policy start u := by
  cases h with
  | seed hname =>
    rcases covered_await.1 hu with hu | hu
    · exact hw.reached u hu
    · exact .seed (State.mem_seeds.1 hname) (ho.agrees.resolves_iff.1 hu)
  | @dep v d hv hd =>
    rcases covered_await.1 hu with hu | hu
    · exact hw.reached u hu
    · obtain ⟨ps, ds, hk⟩ := State.exists_cursor_of_dep? hd
      obtain ⟨hi, hmem⟩ := Policy.mem_depsOf.1 (hw.deps v _ hk d List.mem_cons_self)
      have hagree := ho.agrees.trans (.update Context.dropDep_unit policy w.state v)
      exact .dep (hw.reached v (.inl hv)) hi hmem (hagree.resolves_iff.1 hu)
  | @pass v p =>
    unfold Covered at hu
    rw [State.order_followPre, State.chain_followPre] at hu
    exact hw.reached u hu
  | @descend v x p rest hc hp hx =>
    unfold Covered at hu
    dsimp only at hu
    rw [State.order_followPre] at hu
    rcases hu with hu | hu | hu
    · exact hw.reached u (.inl hu)
    · rcases List.mem_cons.1 hu with rfl | hu
      · obtain ⟨ps, ds, hk⟩ := State.exists_cursor_of_pre? hp
        have hv : s.Reached policy start v := hw.reached v (.inr (.inl (hc ▸ List.mem_cons_self)))
        exact .pre hv (hw.pres v _ hk p List.mem_cons_self) (ho.agrees.resolves_iff.1 hx)
      · exact hw.reached u (.inr (.inl hu))
    · exact hw.reached u (.inr (.inr hu))
  | visit hc => exact hw.reached u ((covered_visit hc).1 hu)
  | skip hc hq =>
    exact hw.reached u (hu.imp_right (.imp_right fun h ↦ hq ▸ List.mem_cons_of_mem _ h))
  | begin hc hq =>
    rcases hu with hu | hu | hu
    · exact hw.reached u (.inl hu)
    · exact hw.reached u (.inr (.inr (by rw [hq, List.mem_singleton.1 hu]; exact List.mem_cons_self)))
    · exact hw.reached u (.inr (.inr (hq ▸ List.mem_cons_of_mem _ hu)))

theorem Move.path (h : Move policy seeds w w') (hw : w.state.Grounded) (hagree : s.Agrees policy w.state)
    (hpath : w.state.chain.IsChain fun v u ↦ s.Requires policy u v) :
    w'.state.chain.IsChain fun v u ↦ s.Requires policy u v := by
  cases h with
  | seed =>
    rw [chain_await]
    exact hpath
  | dep =>
    rw [chain_await]
    exact hpath
  | pass =>
    rw [State.chain_followPre]
    exact hpath
  | @descend v x p rest hc hp hx =>
    obtain ⟨ps, ds, hk⟩ := State.exists_cursor_of_pre? hp
    dsimp only
    rw [hc] at hpath ⊢
    refine List.isChain_cons_cons.2 ⟨⟨p, ?_, hagree.resolves_iff.1 hx⟩, hpath⟩
    exact hw v _ hk p List.mem_cons_self
  | visit hc =>
    rw [hc] at hpath
    exact hpath.tail
  | skip => exact hpath
  | begin => exact .singleton _

theorem Within.move (hw : Within policy s start w) (ho : Orderly policy s w)
    (h : Move policy (s.seeds policy start) w w') : Within policy s start w' where
  reached u hu := hw.reached_move ho h hu
  path := h.path hw.pres ho.agrees hw.path
  pres := h.grounded hw.pres
  deps u k hk d hd := by
    rcases h.cursor u with heq | ⟨-, heq⟩ | ⟨p, ps, ds, hk', heq⟩ | ⟨d', ps, ds, hk', heq, -⟩
    · exact hw.deps u k (heq.symm.trans hk) d hd
    · cases heq.symm.trans hk
      exact hd
    · cases heq.symm.trans hk
      exact hw.deps u _ hk' d hd
    · cases heq.symm.trans hk
      exact hw.deps u _ hk' d (List.mem_cons_of_mem _ hd)

/-- What the moves of a walk from a fresh state keep: a dependency is still on its cursor, or nothing more is
to be done for it than to visit what waits. -/
def DepsFollowed (policy : Policy) (s : State) (w : Walk) : Prop :=
  ∀ u k, w.state.cursor? u = some k →
    ∀ d ∈ policy.depsOf u, d ∈ k.deps ∨ s.Settled policy w.Covered d

theorem DepsFollowed.move (hw : DepsFollowed policy s w) (ho : Orderly policy s w)
    (h : Move policy seeds w w') : DepsFollowed policy s w' := by
  intro u k hk d hd
  have hold : ∀ k', w.state.cursor? u = some k' → d ∈ k'.deps ∨ s.Settled policy w'.Covered d :=
    fun k' hk' ↦ (hw u k' hk' d hd).imp_right fun hset ↦ hset.mono fun v hv ↦ h.covered hv
  rcases h.cursor u with heq | ⟨-, heq⟩ | ⟨p, ps, ds, hk', heq⟩ | ⟨d', ps, ds, hk', heq, -, rfl, hdef⟩
  · exact hold k (heq.symm.trans hk)
  · cases heq.symm.trans hk
    exact .inl hd
  · cases heq.symm.trans hk
    exact hold ⟨p :: ps, ds⟩ hk'
  · cases heq.symm.trans hk
    rcases hold ⟨ps, d' :: ds⟩ hk' with hin | hset
    · rcases List.mem_cons.1 hin with rfl | hin
      · have hagree := ho.agrees.trans (.update Context.dropDep_unit policy w.state u)
        refine .inr (hagree.settled hdef fun v hv ↦ covered_await.2 (.inr ?_))
        exact hagree.resolves_iff.2 hv
      · exact .inl hin
    · exact .inr hset

theorem settled_enqueueAll {names : List Symbol} (hagree : s.Agrees policy w.state)
    (h : w.enqueueAll policy names = (none, w')) :
    ∀ name ∈ names, s.Settled policy w'.Covered name := by
  induction names generalizing w with
  | nil => intro name hname; cases hname
  | cons name rest ih =>
    unfold enqueueAll at h
    split at h
    · cases h
    · next w₁ heq =>
      obtain ⟨hdef, rfl⟩ := await_of_enqueue heq
      have hmoves := moves_of_enqueueAll h
      intro x hx
      rcases List.mem_cons.1 hx with rfl | hx
      · refine hagree.settled hdef fun v hv ↦ hmoves.covered (covered_await.2 (.inr ?_))
        exact hagree.resolves_iff.2 hv
      · exact ih (hagree.trans (.resolve policy w.state name)) h x hx

def Drained (w : Walk) (u : LinkUnit) : Prop := ∃ k, w.state.cursor? u = some k ∧ k.deps = []

theorem Drained.move (hu : w.Drained u) (h : Move policy seeds w w') : w'.Drained u := by
  obtain ⟨k, hk, hdeps⟩ := hu
  rcases h.cursor u with heq | ⟨hnone, -⟩ | ⟨p, ps, ds, hk', heq⟩ | ⟨d, ps, ds, hk', -⟩
  · exact ⟨k, heq.trans hk, hdeps⟩
  · cases hnone.symm.trans hk
  · cases hk'.symm.trans hk
    exact ⟨_, heq, hdeps⟩
  · cases hk'.symm.trans hk
    cases hdeps

theorem Drained.moves (hu : w.Drained u) (h : Moves policy seeds w w') : w'.Drained u := by
  induction h with
  | refl => exact hu
  | tail _ hmove ih => exact ih.move hmove

theorem drained_of_steps (ho : Orderly policy s w) (hw : ∀ u ∈ w.state.order, w.Drained u)
    (h : Steps policy w w') : ∀ u ∈ w'.state.order, w'.Drained u := by
  induction h with
  | refl => exact hw
  | @tail w₁ w₂ hsteps hstep ih =>
    intro u hu
    have ho₂ := (ho.moves (moves_of_steps [] hsteps)).moves (moves_of_next [] hstep)
    rcases dep?_of_step hstep hu with hold | hdep
    · exact (ih u hold).moves (moves_of_next [] hstep)
    · obtain ⟨k, hk⟩ := ho₂.exists_cursor (.inl hu)
      exact ⟨k, hk, State.deps_eq_nil_of_dep? hdep hk⟩

end Walk

namespace State

open Walk

variable {s : State} {policy : Policy} {start : Option (List Symbol)}

theorem Fresh.within (hs : s.Fresh) (policy : Policy) (start : Option (List Symbol)) :
    Within policy s start ⟨s, [], []⟩ := by
  refine ⟨?_, ?_, ?_, ?_⟩
  · rintro u (hu | hu | hu)
    · rw [hs.order] at hu
      cases hu
    · rw [hs.chain] at hu
      cases hu
    · cases hu
  · rw [hs.chain]
    exact .nil
  · intro u k hk
    cases (hs.inactive u).symm.trans hk
  · intro u k hk
    cases (hs.inactive u).symm.trans hk

theorem Fresh.moves {w : Walk} (hs : s.Fresh)
    (h : Moves policy (s.seeds policy start) ⟨s, [], []⟩ w) :
    Orderly policy s w ∧ Within policy s start w ∧ DepsFollowed policy s w := by
  induction h with
  | refl =>
    refine ⟨hs.ready.orderly policy, hs.within policy start, fun u k hk ↦ ?_⟩
    cases (hs.inactive u).symm.trans hk
  | tail _ hmove ih =>
    obtain ⟨ho, hw, hd⟩ := ih
    exact ⟨ho.move hmove, hw.move ho hmove, hd.move ho hmove⟩

theorem Fresh.exists_walk (hs : s.Fresh) (h : (s.traverse policy start).error = none) :
    ∃ w₁ w, Walk.enqueueAll ⟨s, [], []⟩ policy (s.seeds policy start) = (none, w₁) ∧
      Moves policy (s.seeds policy start) w₁ w ∧
      s.traverse policy start = ⟨w.visits, none, w.state⟩ ∧
      (∀ u, w.Covered u ↔ u ∈ w.visits) ∧ ∀ u ∈ w.visits, w.Drained u := by
  obtain ⟨w₁, w, hseed, hsteps, hchain, hqueue, heq⟩ := traverse_of_ok h
  have hmoves₁ := moves_of_enqueueAll hseed
  have hmoves₂ : Moves policy (s.seeds policy start) w₁ w := moves_of_steps _ hsteps
  obtain ⟨ho₁, -, -⟩ := hs.moves hmoves₁
  obtain ⟨ho, -, -⟩ := hs.moves (hmoves₁.trans hmoves₂)
  have horder : w.state.order = w.visits := by rw [ho.order, hs.order, List.nil_append]
  refine ⟨w₁, w, hseed, hmoves₂, heq, fun u ↦ ?_, horder ▸ ?_⟩
  · simp [Covered, hchain, hqueue, horder]
  · refine drained_of_steps ho₁ (fun u hu ↦ ?_) hsteps
    have hvisits := visits_enqueueAll ⟨s, [], []⟩ policy (s.seeds policy start)
    rw [hseed] at hvisits
    rw [ho₁.order, hs.order, hvisits] at hu
    cases hu

/-- A walk from a fresh state that has taken up all seeds and has nothing left to do visited a closed set. -/
theorem Fresh.closed_of_moves {w : Walk} (hs : s.Fresh)
    (h : Moves policy (s.seeds policy start) ⟨s, [], []⟩ w)
    (hseeds : ∀ name, s.Seed policy start name → s.Settled policy w.Covered name)
    (hcovered : ∀ u, w.Covered u ↔ u ∈ w.visits) (hdrained : ∀ u ∈ w.visits, w.Drained u) :
    s.Closed policy start (· ∈ w.visits) := by
  obtain ⟨ho, -, hdeps⟩ := hs.moves h
  refine ⟨fun name hname ↦ ?_, fun u hu p hp ↦ ?_, fun u hu d hd ↦ ?_⟩
  · exact (hseeds name hname).mono fun v hv ↦ (hcovered v).1 hv
  · obtain ⟨before, after, hsplit⟩ := List.append_of_mem hu
    refine (ho.ordered before u after hsplit p hp).mono fun v hv ↦ ?_
    rw [hs.order, List.nil_append] at hv
    exact hsplit ▸ List.mem_append_left _ hv
  · obtain ⟨k, hk, hnil⟩ := hdrained u hu
    rcases hdeps u k hk d hd with hin | hset
    · rw [hnil] at hin
      cases hin
    · exact hset.mono fun v ↦ (hcovered v).1

theorem Fresh.closed_visits (hs : s.Fresh) (h : (s.traverse policy start).error = none) :
    s.Closed policy start (· ∈ (s.traverse policy start).visits) := by
  obtain ⟨w₁, w, hseed, hmoves, heq, hcovered, hdrained⟩ := hs.exists_walk h
  rw [heq]
  refine hs.closed_of_moves ((moves_of_enqueueAll hseed).trans hmoves) (fun name hname ↦ ?_)
    hcovered hdrained
  have hset := settled_enqueueAll (.refl policy s) hseed name (mem_seeds.2 hname)
  exact hset.mono fun v hv ↦ hmoves.covered hv

theorem Fresh.mem_visits_iff (hs : s.Fresh) (h : (s.traverse policy start).error = none)
    (u : LinkUnit) : u ∈ (s.traverse policy start).visits ↔ s.Reached policy start u := by
  refine ⟨fun hu ↦ ?_, (hs.closed_visits h).of_reached⟩
  obtain ⟨w, hmoves, -, -, heq⟩ := moves_of_ok h
  obtain ⟨ho, hw, -⟩ := hs.moves hmoves
  rw [heq] at hu
  refine hw.reached u (.inl ?_)
  rw [ho.order]
  exact List.mem_append_right _ hu

end State

/-- A traversal of a state just built that succeeds visits exactly the units that are reached, each once. -/
theorem visits_exactly_reached {units : List LinkUnit} {extdefs includes : SymbolSet}
    {sink : Option SymbolSet} {s : State} {policy : Policy} {start : Option (List Symbol)}
    (hbuild : State.build units extdefs includes sink = .ok s)
    (hok : (s.traverse policy start).error = none) :
    (s.traverse policy start).visits.Nodup ∧
      ∀ u, u ∈ (s.traverse policy start).visits ↔ s.Reached policy start u := by
  have hs := State.fresh_of_build hbuild
  obtain ⟨w, hmoves, -, -, heq⟩ := State.moves_of_ok hok
  obtain ⟨ho, -, -⟩ := hs.moves hmoves
  refine ⟨?_, hs.mem_visits_iff hok⟩
  have hnodup := ho.nodup_order
  rw [ho.order] at hnodup
  rw [heq]
  exact (List.nodup_append.1 hnodup).2.1

namespace Tangle

def main : LinkUnit :=
  { name := "main", defs := ["main"], pres := ["base"], deps := ["loop", "sys", "ext", "missing"] }

def base : LinkUnit := { name := "base", defs := ["base", "ground"] }

def loop : LinkUnit := { name := "loop", defs := ["loop"], pres := ["ground"], deps := ["main"] }

def sys : LinkUnit := { name := "sys", defs := ["sys"], native := true }

def ext : LinkUnit := { name := "ext", defs := ["ext"] }

def knot : LinkUnit := { name := "knot", defs := ["knot"], pres := ["main", "knot"] }

def units : List LinkUnit := [main, base, loop, sys, ext, knot]

def fresh : State :=
  { contexts := units.map ({ unit := · })
    extdefs := .ofList ["ext"]
    includes := .ofList ["loop", "knot"]
    unresolved := some ∅ }

def policy : Policy := { allowExternal := true }

theorem build_eq_fresh :
    State.build units (.ofList ["ext"]) (.ofList ["loop", "knot"]) (some ∅) = .ok fresh := rfl

theorem loop_reached_once :
    State.build units (.ofList ["ext"]) (.ofList ["loop", "knot"]) (some ∅) = .ok fresh ∧
      (fresh.traverse policy (some ["main"])).error = none ∧
      [base, main, loop].Nodup ∧
      ∀ u, u ∈ [base, main, loop] ↔ fresh.Reached policy (some ["main"]) u := by
  have hok : (fresh.traverse policy (some ["main"])).error = none := by decide +kernel
  have hvisits : (fresh.traverse policy (some ["main"])).visits = [base, main, loop] := by
    decide +kernel
  have h := visits_exactly_reached build_eq_fresh hok
  rw [hvisits] at h
  exact ⟨build_eq_fresh, hok, h⟩

end Tangle

end LinkOrder
