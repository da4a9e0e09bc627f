import LinkOrder.Proofs.Construction
import LinkOrder.Proofs.Failure
import LinkOrder.Proofs.Simulation

namespace LinkOrder

namespace State

variable {s t : State} {M : Symbol → Prop} {policy : Policy} {name : Symbol} {u : LinkUnit}

/-- Two states that differ at most in the units they list, where symbols in `M` have the same owners. -/
structure Twins (M : Symbol → Prop) (s t : State) : Prop where
  owner : ∀ name, M name → t.owner? name = s.owner? name
  cursor : ∀ u, t.cursor? u = s.cursor? u
  extdefs : t.extdefs = s.extdefs
  includes : t.includes = s.includes
  unresolved : t.unresolved = s.unresolved
  order : t.order = s.order
  chain : t.chain = s.chain

namespace Twins

theorem pre? (h : Twins M s t) (u : LinkUnit) : t.pre? u = s.pre? u := by
  rw [pre?_eq, pre?_eq, h.cursor]

theorem dep? (h : Twins M s t) (u : LinkUnit) : t.dep? u = s.dep? u := by
  rw [dep?_eq, dep?_eq, h.cursor]

theorem with_trail {order order' : List LinkUnit} (h : Twins M s t) (chain : List LinkUnit) (horder : order' = order) :
    Twins M { s with chain, order } { t with chain, order := order' } :=
  ⟨h.owner, h.cursor, h.extdefs, h.includes, h.unresolved, horder, rfl⟩

theorem update {f : Context → Context} {g : Cursor → Cursor} (hf : ∀ c, (f c).unit = c.unit)
    (hg : ∀ c, (f c).cursor = c.cursor.map g) (h : Twins M s t) (u : LinkUnit) :
    Twins M (s.update u f) (t.update u f) := by
  refine ⟨fun name hname ↦ ?_, fun v ↦ ?_, h.extdefs, h.includes, h.unresolved, h.order, h.chain⟩
  · rw [owner?_congr (units_update hf t u), owner?_congr (units_update hf s u)]
    exact h.owner name hname
  · rw [cursor?_update hf hg, cursor?_update hf hg, h.cursor]

theorem record (h : Twins M s t) (name : Symbol) : Twins M (s.record name) (t.record name) :=
  ⟨h.owner, h.cursor, h.extdefs, h.includes, congrArg (Option.map _) h.unresolved, h.order, h.chain⟩

theorem reach (h : Twins M s t) (policy : Policy) (name : Symbol) :
    Twins M (s.reach policy name) (t.reach policy name) := by
  refine ⟨h.owner, h.cursor, h.extdefs, ?_, h.unresolved, h.order, h.chain⟩
  simp only [State.reach, h.includes]

theorem link (h : Twins M s t) (policy : Policy) (name : Symbol) (hs : u ∈ s.units)
    (ht : u ∈ t.units) : Twins M (s.link policy name u) (t.link policy name u) := by
  refine ⟨fun d hd ↦ ?_, fun v ↦ ?_, ?_, h.includes, h.unresolved, h.order, h.chain⟩
  · have hunits : ∀ r : State, (r.link policy name u).units = r.units := fun r ↦
      units_update (Context.activate_unit policy) _ u
    rw [owner?_congr (hunits t), owner?_congr (hunits s)]
    exact h.owner d hd
  · rw [cursor?_link ht, cursor?_link hs, h.cursor, h.cursor]
  · simp only [State.link, State.update, h.extdefs]

theorem resolve (h : Twins M s t) (policy : Policy) (hname : M name) :
    (t.resolve policy name).1 = (s.resolve policy name).1 ∧
      Twins M (s.resolve policy name).2 (t.resolve policy name).2 := by
  have howner := h.owner name hname
  unfold State.resolve
  rw [h.extdefs, howner, h.unresolved]
  split
  · exact ⟨rfl, h.record name⟩
  · split
    · exact ⟨rfl, (h.reach policy name).record name⟩
    · next u hu =>
      split
      · exact ⟨rfl, (h.reach policy name).record name⟩
      · exact ⟨rfl, (h.reach policy name).link policy name (mem_units_of_owner? hu)
          (mem_units_of_owner? (howner.trans hu))⟩

theorem pairing (M : Symbol → Prop) (policy : Policy) :
    Walk.Pairing policy policy M (Twins M) fun _ _ ↦ False where
  chain := Twins.chain
  order := Twins.order
  with_trail := with_trail
  resolve h hname := .inl (h.resolve policy hname)
  skips _ h := h

end Twins

end State

namespace Walk

/-- Whatever a covered unit has still to follow is in `M`. -/
def Confined (M : Symbol → Prop) (w : Walk) : Prop :=
  ∀ u k, w.Covered u → w.state.cursor? u = some k → (∀ p ∈ k.pres, M p) ∧ ∀ d ∈ k.deps, M d

theorem Within.confined {policy : Policy} {s : State} {start : Option (List Symbol)} {w : Walk}
    (hw : Within policy s start w) : Confined (s.Met policy start) w := by
  intro u k hu hk
  have hreached := hw.reached u hu
  refine ⟨fun p hp ↦ .pre hreached (hw.pres u k hk p hp), fun d hd ↦ ?_⟩
  obtain ⟨hi, hmem⟩ := Policy.mem_depsOf.1 (hw.deps u k hk d hd)
  exact .dep hreached hi hmem

end Walk

/-- Two outcomes that are the same but for the units of which the states are made. -/
structure Outcome.Matches (o o' : Outcome) : Prop where
  error : o'.error = o.error
  visits : o'.visits = o.visits
  unresolved : o'.state.unresolved = o.state.unresolved
  extdefs : o'.state.extdefs = o.state.extdefs
  includes : o'.state.includes = o.state.includes

namespace State

open Walk

variable {s t : State} {policy : Policy} {start : Option (List Symbol)}

theorem Twins.simulation (hs : s.Fresh) (h : Twins (s.Met policy start) s t) :
    Simulation policy policy (s.seeds policy start) s t (s.Met policy start) (Twins (s.Met policy start))
      (fun _ _ ↦ False) (· = []) where
  toPairing := Twins.pairing _ policy
  start := h
  seed name hname := .seed (mem_seeds.1 hname)
  extra := rfl
  pre {w w' u rest} hw _ h hc := by
    have hu : w.Covered u := .inr (.inl (hc ▸ List.mem_cons_self))
    refine ⟨h.state.pre? u, fun p hp ↦ ⟨?_, h.state.update Context.dropPre_unit Context.dropPre_cursor u⟩⟩
    obtain ⟨ps, ds, hk⟩ := exists_cursor_of_pre? hp
    exact ((hs.moves hw).2.1.confined u _ hu hk).1 p List.mem_cons_self
  deps {w w' u rest} hw _ h hc := by
    have hu : w.Covered u := .inr (.inl (hc ▸ List.mem_cons_self))
    have hpair := Twins.pairing (s.Met policy start) policy
    exact hpair.followDeps (fun h ↦ h.dep? u) (fun h ↦ h.update Context.dropDep_unit Context.dropDep_cursor u)
      (hpair.visit h u rest) (List.mem_append_right _ List.mem_cons_self)
      fun k hk ↦ ((hs.moves hw).2.1.confined u k hu hk).2

theorem Twins.traverse (hs : s.Fresh) (h : Twins (s.Met policy start) s t)
    (hseeds : t.seeds policy start = s.seeds policy start) :
    (s.traverse policy start).Matches (t.traverse policy start) := by
  have hends := (h.simulation hs).traverse hseeds
  generalize s.traverse policy start = o at hends ⊢
  generalize t.traverse policy start = o' at hends ⊢
  cases hends with
  | same htwins => exact ⟨rfl, rfl, htwins.unresolved, htwins.extdefs, htwins.includes⟩
  | past _ hskips => exact hskips.elim
  | early hmore hne => exact absurd hmore hne

theorem seeds_of_start {names : List Symbol} (h : t.includes = s.includes) :
    t.seeds policy (some names) = s.seeds policy (some names) := by
  simp only [seeds, Option.getD_some, h]

theorem Fresh.twins {M : Symbol → Prop} (hs : s.Fresh) (ht : t.Fresh) (hextdefs : t.extdefs = s.extdefs)
    (hincludes : t.includes = s.includes) (hunresolved : t.unresolved = s.unresolved)
    (howner : ∀ name, M name → t.owner? name = s.owner? name) : Twins M s t where
  owner := howner
  cursor u := by rw [hs.inactive, ht.inactive]
  extdefs := hextdefs
  includes := hincludes
  unresolved := hunresolved
  order := by rw [hs.order, ht.order]
  chain := by rw [hs.chain, ht.chain]

end State

theorem State.owner?_of_perm {units units' added : List LinkUnit} {extdefs includes : SymbolSet}
    {sink : Option SymbolSet} {s t : State} {name : Symbol}
    (hs : State.build units extdefs includes sink = .ok s)
    (ht : State.build units' extdefs includes sink = .ok t) (hperm : units'.Perm (units ++ added))
    (hname : ∀ u ∈ added, name ∉ u.defs) : t.owner? name = s.owner? name := by
  ext u
  rw [owner?_eq_some_iff ht, owner?_eq_some_iff hs, hperm.mem_iff, List.mem_append]
  constructor
  · rintro ⟨hu | hu, hd⟩
    · exact ⟨hu, hd⟩
    · exact absurd hd (hname u hu)
  · intro hu
    exact ⟨.inl hu.1, hu.2⟩

theorem State.matches_of_owners {units units' : List LinkUnit} {extdefs includes : SymbolSet}
    {sink : Option SymbolSet} {s t : State} {policy : Policy} {start : List Symbol}
    (hs : State.build units extdefs includes sink = .ok s)
    (ht : State.build units' extdefs includes sink = .ok t)
    (howner : ∀ name, s.Met policy (some start) name → t.owner? name = s.owner? name) :
    (s.traverse policy (some start)).Matches (t.traverse policy (some start)) := by
  have hextdefs : t.extdefs = s.extdefs := by rw [eq_of_build hs, eq_of_build ht]
  have hincludes : t.includes = s.includes := by rw [eq_of_build hs, eq_of_build ht]
  have hunresolved : t.unresolved = s.unresolved := by rw [eq_of_build hs, eq_of_build ht]
  have hfresh := fresh_of_build hs
  have htwins := hfresh.twins (fresh_of_build ht) hextdefs hincludes hunresolved howner
  exact htwins.traverse hfresh (seeds_of_start hincludes)

/-- A traversal of a state just built depends on no more of the units than the owners of the symbols that it meets. So
it comes to the same whatever the order of the units, and with further units that define none of these symbols. -/
theorem outcome_depends_on_met_owners {units units' : List LinkUnit} {extdefs includes : SymbolSet}
    {sink : Option SymbolSet} {s t : State}
    (hs : State.build units extdefs includes sink = .ok s)
    (ht : State.build units' extdefs includes sink = .ok t) (policy : Policy) (start : List Symbol) :
    ((∀ name, s.Met policy (some start) name → t.owner? name = s.owner? name) →
        (s.traverse policy (some start)).Matches (t.traverse policy (some start))) ∧
      ∀ added, units'.Perm (units ++ added) →
        (∀ u ∈ added, ∀ d ∈ u.defs, ¬s.Met policy (some start) d) →
        (s.traverse policy (some start)).Matches (t.traverse policy (some start)) := by
  refine ⟨State.matches_of_owners hs ht, fun added hperm hadded ↦ State.matches_of_owners hs ht fun name hname ↦ ?_⟩
  exact State.owner?_of_perm hs ht hperm fun u hu hd ↦ hadded u hu name hd hname

namespace Tangle

def spare : LinkUnit := { name := "spare", defs := ["spare"], pres := ["knot"], deps := ["main"] }

def shuffled : State := { fresh with contexts := (spare :: units.reverse).map ({ unit := · }) }

theorem not_met_spare : ¬fresh.Met policy (some ["main"]) "spare" := by
  have hok : (fresh.traverse policy (some ["main"])).error = none := by decide +kernel
  have hvisits : (fresh.traverse policy (some ["main"])).visits = [base, main, loop] := by
    decide +kernel
  have hreached : ∀ u, fresh.Reached policy (some ["main"]) u → u ∈ [base, main, loop] := by
    intro u hu
    rw [← hvisits]
    exact ((State.fresh_of_build build_eq_fresh).mem_visits_iff hok u).2 hu
  have hrefs : ∀ u ∈ [base, main, loop], "spare" ∉ u.pres ∧ "spare" ∉ u.deps := by decide
  rintro (hseed | ⟨hu, hp⟩ | ⟨hu, -, hd⟩)
  · cases hseed with
    | given h => exact absurd h (by decide)
    | included h => exact absurd h (by decide)
  · exact (hrefs _ (hreached _ hu)).1 hp
  · exact (hrefs _ (hreached _ hu)).2 hd

theorem shuffled_with_spare :
    State.build units (.ofList ["ext"]) (.ofList ["loop", "knot"]) (some ∅) = .ok fresh ∧
      State.build (spare :: units.reverse) (.ofList ["ext"]) (.ofList ["loop", "knot"]) (some ∅) =
        .ok shuffled ∧
      (∀ u ∈ [spare], ∀ d ∈ u.defs, ¬fresh.Met policy (some ["main"]) d) ∧
      (fresh.traverse policy (some ["main"])).Matches (shuffled.traverse policy (some ["main"])) := by
  have hbuild : State.build (spare :: units.reverse) (.ofList ["ext"]) (.ofList ["loop", "knot"])
      (some ∅) = .ok shuffled := rfl
  have hspare : ∀ u ∈ [spare], ∀ d ∈ u.defs, ¬fresh.Met policy (some ["main"]) d := by
    intro u hu d hd
    obtain rfl := List.mem_singleton.1 hu
    obtain rfl := List.mem_singleton.1 hd
    exact not_met_spare
  refine ⟨build_eq_fresh, hbuild, hspare, ?_⟩
  exact (outcome_depends_on_met_owners build_eq_fresh hbuild policy ["main"]).2 [spare]
    (by decide +kernel) hspare

end Tangle

end LinkOrder
