import LinkOrder.Proofs.Lifetime

namespace LinkOrder

open Relation

namespace State

variable {s t : State} {policy : Policy} {name : Symbol} {u v : LinkUnit} {k : Cursor}

/-- Nothing more is to be done for a symbol once all units it leads to are in `S`. -/
structure Settled (s : State) (policy : Policy) (S : LinkUnit → Prop) (name : Symbol) : Prop where
  target : ∀ v, s.Resolves policy name v → S v
  defined : s.unresolved = none → ¬s.Undefined policy name

theorem Settled.mono {S T : LinkUnit → Prop} (h : s.Settled policy S name) (hST : ∀ v, S v → T v) :
    s.Settled policy T name := ⟨fun v hv ↦ hST v (h.target v hv), h.defined⟩

theorem Agrees.unresolved_eq_none_iff (h : Agrees policy s t) :
    t.unresolved = none ↔ s.unresolved = none := by
  rw [← Option.isNone_iff_eq_none, ← Option.isNone_iff_eq_none, ← Option.not_isSome,
    ← Option.not_isSome, h.unresolved]

theorem pres_of_resolve (hk : (s.resolve policy name).2.cursor? v = some k) :
    s.cursor? v = some k ∨ k.pres = v.pres := by
  rcases s.cursor?_resolve policy name v with heq | ⟨-, -, heq⟩
  · exact .inl (heq.symm.trans hk)
  · cases heq.symm.trans hk
    exact .inr rfl

theorem pres_of_dropDep (hk : (s.update u Context.dropDep).cursor? v = some k) :
    ∃ k', s.cursor? v = some k' ∧ k.pres = k'.pres := by
  rw [cursor?_update Context.dropDep_unit Context.dropDep_cursor] at hk
  split at hk
  · obtain ⟨k', hk', rfl⟩ := Option.map_eq_some_iff.1 hk
    exact ⟨k', hk', rfl⟩
  · exact ⟨k, hk, rfl⟩

theorem Agrees.settled {S : LinkUnit → Prop} (h : Agrees policy s t)
    (hdef : (t.resolve policy name).1 ≠ .undefined) (hS : ∀ v, s.Resolves policy name v → S v) :
    s.Settled policy S name := by
  refine ⟨hS, fun hnone hu ↦ hdef (resolve_eq_undefined_iff.2 ⟨?_, ?_⟩)⟩
  · exact h.undefined_iff.2 hu
  · exact h.unresolved_eq_none_iff.2 hnone

end State

namespace Walk

/-- What the moves of a walk that began in `s` keep. A unit in progress has followed the prerequisites that
are off its cursor, and these are visited or in progress above it. -/
structure Orderly (policy : Policy) (s : State) (w : Walk) : Prop where
  agrees : s.Agrees policy w.state
  order : w.state.order = s.order ++ w.visits
  nodup : (w.state.chain ++ w.state.order).Nodup
  active : ∀ u, w.Covered u → (w.state.cursor? u).isSome
  fresh : ∀ u k, u ∉ w.state.chain → u ∉ w.state.order → w.state.cursor? u = some k →
    k.pres = u.pres
  followed : ∀ above u below k, w.state.chain = above ++ u :: below → w.state.cursor? u = some k →
    ∀ p ∈ u.pres, p ∈ k.pres ∨ s.Settled policy (fun v ↦ v ∈ w.state.order ∨ v ∈ above) p
  ordered : ∀ before u after, w.visits = before ++ u :: after →
    ∀ p ∈ u.pres, s.Settled policy (· ∈ s.order ++ before) p

theorem exists_split {new l above below : List LinkUnit} {v : LinkUnit}
    (h : new ++ l = above ++ v :: below) (hv : v ∉ new) :
    ∃ mid, above = new ++ mid ∧ l = mid ++ v :: below := by
  rcases List.append_eq_append_iff.1 h with ⟨mid, h₁, h₂⟩ | ⟨mid, h₁, h₂⟩
  · exact ⟨mid, h₁, h₂⟩
  · cases mid with
    | nil => exact ⟨[], by simpa using h₁.symm, h₂.symm⟩
    | cons x mid =>
      cases h₂
      exact absurd (h₁ ▸ List.mem_append_right _ List.mem_cons_self) hv

namespace Orderly

variable {policy : Policy} {seeds : List Symbol} {s : State} {w w' : Walk} {u : LinkUnit}
  {p : Symbol} {rest before after : List LinkUnit}

theorem steady (hw : Orderly policy s w) : Steady s w := ⟨hw.order, hw.nodup, hw.active⟩

theorem exists_cursor (hw : Orderly policy s w) (hu : w.Covered u) :
    ∃ k, w.state.cursor? u = some k := Option.isSome_iff_exists.1 (hw.active u hu)

theorem nodup_order (hw : Orderly policy s w) : w.state.order.Nodup := hw.steady.nodup_order

theorem not_mem_order (hw : Orderly policy s w) (hu : u ∈ w.state.chain) : u ∉ w.state.order :=
  fun h ↦ (List.nodup_append.1 hw.nodup).2.2 u hu u h rfl

theorem not_mem_before (hw : Orderly policy s w) (hsplit : w.visits = before ++ u :: after) :
    u ∉ s.order ++ before := by
  have hnodup := hw.nodup_order
  rw [hw.order, hsplit, ← List.append_assoc] at hnodup
  intro hu
  exact (List.nodup_append.1 hnodup).2.2 u hu u List.mem_cons_self rfl

theorem of_trail (hw : Orderly policy s w) (hagree : s.Agrees policy w'.state) (hw' : Steady s w')
    (hchain : w'.state.chain = w.state.chain) (horder : w'.state.order = w.state.order)
    (hvisits : w'.visits = w.visits)
    (hcursor : ∀ v k, w'.state.cursor? v = some k →
      (∃ k', w.state.cursor? v = some k' ∧ k.pres = k'.pres) ∨ k.pres = v.pres) :
    Orderly policy s w' := by
  -- Units that become active and dependencies that leave a cursor are of no account.
  refine ⟨hagree, hw'.order, hw'.nodup, hw'.active, ?_, ?_, ?_⟩
  · intro u k hc ho hk
    rw [hchain] at hc
    rw [horder] at ho
    rcases hcursor u k hk with ⟨k', hk', hpres⟩ | hpres
    · exact hpres.trans (hw.fresh u k' hc ho hk')
    · exact hpres
  · intro above u below k hc hk p hp
    rw [hchain] at hc
    rw [horder]
    rcases hcursor u k hk with ⟨k', hk', hpres⟩ | hpres
    · rw [hpres]
      exact hw.followed above u below k' hc hk' p hp
    · exact .inl (hpres ▸ hp)
  · rw [hvisits]
    exact hw.ordered

theorem followPre (hw : Orderly policy s w) (new : List LinkUnit) (hc : w.state.chain = u :: rest)
    (hp : w.state.pre? u = some p)
    (hw' : Steady s
      { w with state := { w.state.followPre policy u p with chain := new ++ w.state.chain } })
    (hset : s.Settled policy (fun v ↦ v ∈ w.state.order ∨ v ∈ new) p) :
    Orderly policy s
      { w with state := { w.state.followPre policy u p with chain := new ++ w.state.chain } } := by
  obtain ⟨ps, ds, hku⟩ := State.exists_cursor_of_pre? hp
  have hagree := State.Agrees.followPre policy w.state u p
  have horder := w.state.order_followPre policy u p
  refine ⟨hw.agrees.trans ⟨hagree.1, hagree.2, hagree.3⟩, hw'.order, hw'.nodup, hw'.active, ?_, ?_,
    hw.ordered⟩
  · intro v k hvc hvo hk
    change (w.state.followPre policy u p).cursor? v = some k at hk
    dsimp only at hvc hvo
    rw [List.mem_append, not_or] at hvc
    rw [horder] at hvo
    have hvu : v ≠ u := fun h ↦ hvc.2 (by rw [hc, h]; exact List.mem_cons_self)
    exact State.pres_followPre hvu (fun k ↦ hw.fresh v k hvc.2 hvo) hk
  · intro above v below k hsplit hk q hq
    change (w.state.followPre policy u p).cursor? v = some k at hk
    dsimp only at hsplit ⊢
    rw [horder]
    -- `v` is one of the new units, or `u` itself right below them, or a unit further down.
    by_cases hvn : v ∈ new
    · left
      have hnodup : (new ++ w.state.chain ++ w.state.order).Nodup := horder ▸ hw'.nodup
      have hvc : v ∉ w.state.chain := by
        rw [List.append_assoc] at hnodup
        exact fun h ↦ (List.nodup_append.1 hnodup).2.2 v hvn v (List.mem_append_left _ h) rfl
      have hvo : v ∉ w.state.order := by
        exact fun h ↦ (List.nodup_append.1 hnodup).2.2 v (List.mem_append_left _ hvn) v h rfl
      have hvu : v ≠ u := fun h ↦ hvc (by rw [hc, h]; exact List.mem_cons_self)
      rwa [State.pres_followPre hvu (fun k ↦ hw.fresh v k hvc hvo) hk]
    · obtain ⟨mid, rfl, hmid⟩ := exists_split hsplit hvn
      by_cases hvu : v = u
      · subst hvu
        cases (State.cursor?_followPre hku).symm.trans hk
        rcases hw.followed mid v below _ hmid hku q hq with hin | hin
        · rcases List.mem_cons.1 hin with rfl | hin
          · exact .inr (hset.mono fun x hx ↦ hx.imp_right (List.mem_append_left _))
          · exact .inl hin
        · exact .inr (hin.mono fun x hx ↦ hx.imp_right (List.mem_append_right _))
      · obtain ⟨k', hk'⟩ := hw.exists_cursor
          (.inr (.inl (hmid ▸ List.mem_append_right _ List.mem_cons_self)))
        cases (State.cursor?_followPre_of_some hvu hk').symm.trans hk
        rcases hw.followed mid v below _ hmid hk' q hq with hin | hin
        · exact .inl hin
        · exact .inr (hin.mono fun x hx ↦ hx.imp_right (List.mem_append_right _))

theorem visit (hw : Orderly policy s w) (hc : w.state.chain = u :: rest)
    (hp : w.state.pre? u = none) (hw' : Steady s (w.visit u rest)) :
    Orderly policy s (w.visit u rest) := by
  obtain ⟨k, hk⟩ := hw.exists_cursor (u := u) (.inr (.inl (hc ▸ List.mem_cons_self)))
  refine ⟨⟨hw.agrees.1, hw.agrees.2, hw.agrees.3⟩, hw'.order, hw'.nodup, hw'.active, ?_, ?_, ?_⟩
  · intro v k hvc hvo hk
    refine hw.fresh v k ?_ (fun h ↦ hvo (List.mem_append_left _ h)) hk
    rw [hc]
    intro h
    rcases List.mem_cons.1 h with rfl | h
    · exact hvo (List.mem_append_right _ List.mem_cons_self)
    · exact hvc h
  · intro above v below k hsplit hk q hq
    have hsplit' : w.state.chain = (u :: above) ++ v :: below := by
      rw [hc]
      exact congrArg (u :: ·) hsplit
    refine (hw.followed _ v below k hsplit' hk q hq).imp_right fun h ↦ h.mono fun x hx ↦ ?_
    rcases hx with hx | hx
    · exact .inl (List.mem_append_left _ hx)
    · rcases List.mem_cons.1 hx with rfl | hx
      · exact .inl (List.mem_append_right _ List.mem_cons_self)
      · exact .inr hx
  · intro before v after hsplit q hq
    change w.visits ++ [u] = before ++ v :: after at hsplit
    rcases List.eq_nil_or_concat after with rfl | ⟨after, x, rfl⟩
    · obtain ⟨rfl, hvu⟩ := List.append_inj' hsplit rfl
      cases hvu
      have hpres := State.pres_eq_nil_of_pre? hp hk
      rcases hw.followed [] u rest k hc hk q hq with hin | hin
      · rw [hpres] at hin
        cases hin
      · refine hin.mono fun x hx ↦ ?_
        rw [hw.order] at hx
        exact hx.resolve_right List.not_mem_nil
    · rw [List.concat_eq_append, ← List.cons_append, ← List.append_assoc] at hsplit
      exact hw.ordered before v after (List.append_inj' hsplit rfl).1 q hq

theorem begin (hw : Orderly policy s w) (hc : w.state.chain = []) (hu : u ∉ w.state.order)
    (hw' : Steady s { w with queue := rest, state := { w.state with chain := [u] } }) :
    Orderly policy s { w with queue := rest, state := { w.state with chain := [u] } } := by
  have hnc : u ∉ w.state.chain := hc ▸ List.not_mem_nil
  refine ⟨⟨hw.agrees.1, hw.agrees.2, hw.agrees.3⟩, hw'.order, hw'.nodup, hw'.active, ?_, ?_,
    hw.ordered⟩
  · intro v k _ hvo hk
    exact hw.fresh v k (hc ▸ List.not_mem_nil) hvo hk
  · intro above v below k hsplit hk q hqv
    have hv : v ∈ [u] := by
      change [u] = above ++ v :: below at hsplit
      exact hsplit ▸ List.mem_append_right _ List.mem_cons_self
    obtain rfl := List.mem_singleton.1 hv
    rw [hw.fresh v k hnc hu hk]
    exact .inl hqv

theorem move (hw : Orderly policy s w) (h : Move policy seeds w w') : Orderly policy s w' := by
  have hw' := hw.steady.move h
  obtain ⟨N, hf⟩ := h.follows
  have hagree := hw.agrees.trans hf.tally.agrees
  cases h with
  | @seed name =>
    refine hw.of_trail hagree hw' (chain_await w policy name) (order_await w policy name) rfl ?_
    intro v k hk
    exact (State.pres_of_resolve hk).imp_left fun hk' ↦ ⟨k, hk', rfl⟩
  | @dep u d =>
    refine hw.of_trail hagree hw' (chain_await _ policy d) (order_await _ policy d) rfl ?_
    intro v k hk
    exact (State.pres_of_resolve hk).imp_left State.pres_of_dropDep
  | @pass u p rest hc hp hdef hv =>
    have hagree := hw.agrees.trans (.update Context.dropPre_unit policy w.state u)
    have hset : s.Settled policy (fun v ↦ v ∈ w.state.order ∨ v ∈ []) p :=
      hagree.settled hdef fun v hr ↦ .inl (hv v (hw.agrees.resolves_iff.2 hr))
    have hsame : { w.state.followPre policy u p with chain := [] ++ w.state.chain } =
        w.state.followPre policy u p := by
      rw [List.nil_append, ← w.state.chain_followPre policy u p]
    rw [← hsame] at hw' ⊢
    exact hw.followPre [] hc hp hw' hset
  | @descend u v p rest hc hp hv hvc hvo =>
    have hagree := hw.agrees.trans (.update Context.dropPre_unit policy w.state u)
    have hset : s.Settled policy (fun x ↦ x ∈ w.state.order ∨ x ∈ [v]) p := by
      refine hagree.settled ?_ fun x hr ↦ .inr ?_
      · rw [State.resolve_of_resolves
          ((State.Agrees.update Context.dropPre_unit policy w.state u).resolves_iff.2 hv)]
        exact Resolution.noConfusion
      · rw [hv.unique (hw.agrees.resolves_iff.2 hr)]
        exact List.mem_cons_self
    exact hw.followPre [v] hc hp hw' hset
  | visit hc hp => exact hw.visit hc hp hw'
  | skip => exact hw.of_trail hagree hw' rfl rfl rfl fun v k hk ↦ .inl ⟨k, hk, rfl⟩
  | begin hc hq hu => exact hw.begin hc hu hw'

theorem moves (hw : Orderly policy s w) (h : Moves policy seeds w w') : Orderly policy s w' := by
  induction h with
  | refl => exact hw
  | tail _ hmove ih => exact ih.move hmove

end Orderly

end Walk

namespace State

variable {s : State} {policy : Policy} {start : Option (List Symbol)}

/-- No walk was broken off in this state: what is not visited has all its prerequisites to follow. -/
structure Ready (s : State) : Prop where
  chain : s.chain = []
  nodup : s.order.Nodup
  active : ∀ u ∈ s.order, (s.cursor? u).isSome
  fresh : ∀ u k, u ∉ s.order → s.cursor? u = some k → k.pres = u.pres

namespace Ready

theorem orderly (hs : s.Ready) (policy : Policy) : Walk.Orderly policy s ⟨s, [], []⟩ where
  agrees := .refl policy s
  order := (List.append_nil _).symm
  nodup := by
    rw [hs.chain]
    exact hs.nodup
  active u hu := by
    rcases hu with hu | hu | hu
    · exact hs.active u hu
    · rw [hs.chain] at hu
      cases hu
    · cases hu
  fresh u k _ hu hk := hs.fresh u k hu hk
  followed above u below k hc := by
    rw [hs.chain] at hc
    simp at hc
  ordered before u after h := by simp at h

theorem resolve (hs : s.Ready) (policy : Policy) (name : Symbol) :
    (s.resolve policy name).2.Ready where
  chain := (s.chain_resolve policy name).trans hs.chain
  nodup := by
    rw [order_resolve]
    exact hs.nodup
  active u hu := by
    rw [order_resolve] at hu
    obtain ⟨k, hk⟩ := Option.isSome_iff_exists.1 (hs.active u hu)
    exact Option.isSome_iff_exists.2 ⟨k, cursor?_resolve_of_some hk⟩
  fresh u k hu hk := by
    rw [order_resolve] at hu
    exact (pres_of_resolve hk).elim (hs.fresh u k hu) id

theorem traverse (hs : s.Ready) (h : (s.traverse policy start).error = none) :
    (s.traverse policy start).state.Ready ∧
      (s.traverse policy start).state.order = s.order ++ (s.traverse policy start).visits := by
  obtain ⟨w, hmoves, hchain, -, heq⟩ := moves_of_ok h
  have hw := (hs.orderly policy).moves hmoves
  rw [heq]
  refine ⟨⟨hchain, hw.nodup_order, fun u hu ↦ hw.active u (.inl hu), fun u k hu hk ↦ ?_⟩, hw.order⟩
  exact hw.fresh u k (hchain ▸ List.not_mem_nil) hu hk

end Ready

theorem Fresh.ready (h : s.Fresh) : s.Ready where
  chain := h.chain
  nodup := by
    rw [h.order]
    exact .nil
  active u hu := by
    rw [h.order] at hu
    cases hu
  fresh u k _ hk := by
    rw [h.inactive] at hk
    cases hk

end State

theorem Session.ready {s₀ s : State} {seen : List LinkUnit} (h₀ : s₀.Fresh)
    (h : Session (·.error = none) s₀ seen s) : s.Ready ∧ seen = s.order := by
  induction h with
  | start => exact ⟨h₀.ready, h₀.order.symm⟩
  | @resolve seen s policy name _ ih =>
    exact ⟨ih.1.resolve policy name, ih.2.trans (s.order_resolve policy name).symm⟩
  | traverse policy start _ hok ih =>
    obtain ⟨hready, horder⟩ := ih.1.traverse hok
    exact ⟨hready, by rw [horder, ih.2]⟩

/-- Whatever was done with a state before, a traversal visits no unit a second time, and none before the
units to which its prerequisites lead. This holds up to the last visit also where the traversal fails. -/
theorem visited_once_after_prerequisites {units : List LinkUnit} {extdefs includes : SymbolSet}
    {sink : Option SymbolSet} {s₀ s : State} {seen before after : List LinkUnit} {u : LinkUnit}
    (hbuild : State.build units extdefs includes sink = .ok s₀)
    (hs : Session (·.error = none) s₀ seen s) (policy : Policy) (start : Option (List Symbol))
    (hu : (s.traverse policy start).visits = before ++ u :: after) :
    u ∉ seen ++ before ∧
      ∀ p ∈ u.pres, ∀ v, s.Resolves policy p v → v ≠ u ∧ v ∈ seen ++ before := by
  obtain ⟨hready, rfl⟩ := hs.ready (State.fresh_of_build hbuild)
  obtain ⟨w, hmoves, hvisits⟩ := State.moves_of_traverse hready.chain policy start
  have hw := (hready.orderly policy).moves hmoves
  rw [hvisits] at hu
  have hnew := hw.not_mem_before hu
  refine ⟨hnew, fun p hp v hv ↦ ?_⟩
  have hmem := (hw.ordered before u after hu p hp).target v hv
  exact ⟨fun h ↦ hnew (h ▸ hmem), hmem⟩

namespace Diamond

def top : LinkUnit := { name := "top", defs := ["t"], pres := ["l", "r"], deps := ["missing"] }

def left : LinkUnit := { name := "left", defs := ["l"], pres := ["b"] }

def right : LinkUnit := { name := "right", defs := ["r"], pres := ["b"] }

def bottom : LinkUnit := { name := "bottom", defs := ["b"] }

def fresh : State := { contexts := [top, left, right, bottom].map ({ unit := · }) }

def half : State := ((fresh.resolve {} "t").2.traverse {} (some ["l"])).state

theorem top_after_both_sides :
    State.build [top, left, right, bottom] ∅ ∅ none = .ok fresh ∧
      Session (·.error = none) fresh [bottom, left] half ∧
      (half.traverse {} (some ["t"])).error = some (.undefinedSymbol "missing") ∧
      (half.traverse {} (some ["t"])).visits = [right] ++ [top] ∧
      top ∉ [bottom, left] ++ [right] ∧
      ∀ p ∈ top.pres, ∀ v, half.Resolves {} p v → v ≠ top ∧ v ∈ [bottom, left] ++ [right] := by
  have hbuild : State.build [top, left, right, bottom] ∅ ∅ none = .ok fresh := rfl
  have hfirst : ((fresh.resolve {} "t").2.traverse {} (some ["l"])).visits = [bottom, left] := by
    decide +kernel
  have hs : Session (·.error = none) fresh ([] ++ _) half :=
    .traverse {} (some ["l"]) (.resolve {} "t" .start) (by decide +kernel)
  rw [hfirst] at hs
  have hvisits : (half.traverse {} (some ["t"])).visits = [right] ++ [top] := by decide +kernel
  exact ⟨hbuild, hs, by decide +kernel, hvisits,
    visited_once_after_prerequisites hbuild hs {} (some ["t"]) hvisits⟩

end Diamond

end LinkOrder
