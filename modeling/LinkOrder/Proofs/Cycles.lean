import LinkOrder.Proofs.Reachability

namespace LinkOrder

namespace State

/-- A unit of the first name has a prerequisite that belongs to a unit of the second. -/
def RequiresByName (s : State) (x y : String) : Prop :=
  ∃ u ∈ s.units, u.name = x ∧ ∃ p ∈ u.pres, ∃ v, s.owner? p = some v ∧ v.name = y

/-- The path goes once around a cycle of prerequisites, over units to be linked. It comes back to where it began from
the unit named `unit`. -/
structure SimpleCycle (s : State) (unit : String) (path : List String) : Prop where
  length : 2 ≤ path.length
  closed : path.head? = path.getLast?
  nodup : path.dropLast.Nodup
  linked : ∀ name ∈ path.dropLast, ∃ u ∈ s.units, u.name = name ∧ u.native = false
  edges : path.IsChain s.RequiresByName
  unit : path.dropLast.getLast? = some unit

end State

namespace Walk

variable {policy : Policy} {seeds : List Symbol} {s : State} {w w' : Walk} {u v : LinkUnit} {p : Symbol}
  {rest : List LinkUnit}

/-- What the moves of a walk that began in `s` keep, even where an earlier walk was broken off: each unit in progress
is required by the one below it. -/
structure Strung (policy : Policy) (s : State) (w : Walk) : Prop where
  steady : Steady s w
  agrees : s.Agrees policy w.state
  grounded : w.state.Grounded
  path : w.state.chain.IsChain fun v u ↦ s.Requires policy u v

namespace Strung

theorem move (hw : Strung policy s w) (h : Move policy seeds w w') : Strung policy s w' := by
  obtain ⟨N, hf⟩ := h.follows
  exact ⟨hw.steady.move h, hw.agrees.trans hf.tally.agrees, h.grounded hw.grounded,
    h.path hw.grounded hw.agrees hw.path⟩

theorem moves (hw : Strung policy s w) (h : Moves policy seeds w w') : Strung policy s w' := by
  induction h with
  | refl => exact hw
  | tail _ hmove ih => exact ih.move hmove

theorem nodup_chain (hw : Strung policy s w) : w.state.chain.Nodup := (List.nodup_append.1 hw.steady.nodup).1

end Strung

theorem circularReference_append {above below : List LinkUnit} (hv : v ∉ above) :
    circularReference (above ++ v :: below) u v =
      .circularReference u.name (((above ++ [v]).reverse ++ [v]).map (·.name)) := by
  have htake : (above ++ v :: below).takeWhile (· ≠ v) = above := by
    rw [List.takeWhile_append_of_pos, List.takeWhile_cons_of_neg (by simp), List.append_nil]
    intro x hx
    simpa using fun h : x = v ↦ hv (h ▸ hx)
  unfold circularReference
  rw [htake]
  simp

theorem Strung.exists_loop (hw : Strung policy s w) (hc : w.state.chain = u :: rest) (huv : s.Requires policy u v)
    (hv : v ∈ w.state.chain) :
    ∃ loop, circularReference w.state.chain u v = .circularReference u.name ((loop ++ [v]).map (·.name)) ∧
      loop.head? = some v ∧ loop.getLast? = some u ∧ loop.Nodup ∧ (∀ x ∈ loop, x ∈ w.state.chain) ∧
      (loop ++ [v]).IsChain (s.Requires policy) := by
  have hnodup := hw.nodup_chain
  have hpath := hw.path
  obtain ⟨above, below, hsplit⟩ := List.append_of_mem hv
  have hcut : w.state.chain = above ++ [v] ++ below := by simp [hsplit]
  have hnew : v ∉ above := by
    rw [hsplit] at hnodup
    exact fun h ↦ (List.nodup_append.1 hnodup).2.2 v h v List.mem_cons_self rfl
  have hhead : (above ++ [v]).head? = some u := by
    rw [hsplit] at hc
    cases above with
    | nil =>
      cases hc
      rfl
    | cons x above =>
      cases hc
      rfl
  have hlast : (above ++ [v]).reverse.getLast? = some u := by rw [List.getLast?_reverse, hhead]
  refine ⟨(above ++ [v]).reverse, ?_, by simp, hlast, ?_, ?_, ?_⟩
  · rw [hsplit, circularReference_append hnew]
  · rw [hcut] at hnodup
    exact List.nodup_reverse.2 hnodup.of_append_left
  · intro x hx
    rw [hcut]
    exact List.mem_append_left below (List.mem_reverse.1 hx)
  · rw [hcut] at hpath
    apply (List.isChain_reverse.2 hpath.left_of_append).append (.singleton v)
    intro x hx y hy
    obtain rfl : u = x := Option.some_inj.1 (hlast.symm.trans hx)
    obtain rfl : v = y := Option.some_inj.1 hy
    exact huv

end Walk

namespace State

open Walk

variable {s : State} {policy : Policy} {start : Option (List Symbol)} {w : Walk} {u v : LinkUnit} {unit : String}
  {path : List String} {loop : List LinkUnit}

theorem Sound.strung (hs : s.Sound) (hground : s.Grounded) (policy : Policy) : Strung policy s ⟨s, [], []⟩ := by
  refine ⟨hs.steady, .refl policy s, hground, ?_⟩
  rw [hs.idle]
  exact .nil

theorem Sound.of_mem_chain {seeds : List Symbol} (hs : s.Sound) (h : Moves policy seeds ⟨s, [], []⟩ w)
    (hu : u ∈ w.state.chain) : u ∈ s.units ∧ u.native = false := by
  have hactive := (hs.steady.moves h).active u (.inr (.inl hu))
  obtain ⟨M, htally⟩ := h.tally
  rcases (htally.active u).1 hactive with hold | ⟨name, -, hnew⟩
  · have hmem := (mem_activeUnits hs.nodup_units).2 hold
    exact ⟨mem_units_of_active hmem, hs.linked u hmem⟩
  · exact ⟨mem_units_of_owner? hnew.owner, hnew.not_native⟩

theorem Sound.not_visited {seeds : List Symbol} {w' : Walk} {e : LinkError} (hs : s.Sound)
    (hmoves : Moves policy seeds ⟨s, [], []⟩ w) (hfault : Fault policy seeds w e w')
    (heq : s.traverse policy start = ⟨w'.visits, some e, { w'.state with chain := [] }⟩) (hu : u ∈ w.state.chain) :
    (s.traverse policy start).state.isVisited u.name = false := by
  obtain ⟨M, htally⟩ := exists_tally hs.idle policy start
  have hnodup := (hs.steady.moves hmoves).nodup
  have horder : (s.traverse policy start).state.order = w.state.order := by
    rw [heq]
    exact hfault.order
  rw [Bool.eq_false_iff]
  intro hvisited
  have hmem : u ∈ (s.traverse policy start).state.order := by
    apply (hs.traverse policy start).1.mem_order_iff.2
    exact ⟨htally.agrees.units ▸ (hs.of_mem_chain hmoves hu).1, hvisited⟩
  rw [horder] at hmem
  exact (List.nodup_append.1 hnodup).2.2 u hu u hmem rfl

theorem Sound.simpleCycle (hs : s.Sound) (hunits : ∀ x ∈ loop, x ∈ s.units ∧ x.native = false)
    (hhead : loop.head? = some v) (hlast : loop.getLast? = some u) (hnodup : loop.Nodup)
    (hedges : (loop ++ [v]).IsChain (s.Requires policy)) :
    s.SimpleCycle u.name ((loop ++ [v]).map (·.name)) := by
  -- Names tell units apart, so that a cycle of units is one of names.
  have hdrop : ((loop ++ [v]).map (·.name)).dropLast = loop.map (·.name) := by simp
  have hmem : ∀ x ∈ loop ++ [v], x ∈ s.units := by
    intro x hx
    rcases List.mem_append.1 hx with hx | hx
    · exact (hunits x hx).1
    · rw [List.mem_singleton.1 hx]
      exact (hunits v (List.mem_of_head? hhead)).1
  refine ⟨?_, ?_, ?_, ?_, ?_, ?_⟩
  · have hpos := List.length_pos_of_mem (List.mem_of_head? hhead)
    simp only [List.length_map, List.length_append, List.length_singleton]
    omega
  · simp [hhead]
  · rw [hdrop]
    exact hnodup.map_on fun x hx y hy hname ↦
      List.inj_on_of_nodup_map hs.names (hunits x hx).1 (hunits y hy).1 hname
  · rw [hdrop]
    intro name hname
    obtain ⟨x, hx, rfl⟩ := List.mem_map.1 hname
    exact ⟨x, (hunits x hx).1, rfl, (hunits x hx).2⟩
  · rw [List.isChain_map]
    refine hedges.imp_of_mem_imp fun x y hx _ hxy ↦ ?_
    obtain ⟨p, hp, hy⟩ := hxy
    exact ⟨x, hmem x hx, rfl, p, hp, y, hy.owner, rfl⟩
  · simp [hlast]

theorem Sound.simpleCycle_of_error (hs : s.Sound) (hground : s.Grounded)
    (h : (s.traverse policy start).error = some (.circularReference unit path)) :
    s.SimpleCycle unit path ∧ ∀ name ∈ path, (s.traverse policy start).state.isVisited name = false := by
  obtain ⟨w, w', hmoves, hfault, heq⟩ := moves_of_error hs.idle h
  have hw := (hs.strung hground policy).moves hmoves
  have hvisited : ∀ x ∈ w.state.chain, (s.traverse policy start).state.isVisited x.name = false :=
    fun x hx ↦ hs.not_visited hmoves hfault heq hx
  generalize he : LinkError.circularReference unit path = e at hfault
  cases hfault with
  | seed => cases he
  | dep => cases he
  | pre => cases he
  | @cycle u v p rest hc hp hv hin =>
    obtain ⟨ps, ds, hk⟩ := exists_cursor_of_pre? hp
    have huv : s.Requires policy u v := ⟨p, hw.grounded u _ hk p List.mem_cons_self, hw.agrees.resolves_iff.1 hv⟩
    obtain ⟨loop, hloop, hhead, hlast, hnodup, hchain, hedges⟩ := hw.exists_loop hc huv hin
    cases he.trans hloop
    have hunits := fun x hx ↦ hs.of_mem_chain hmoves (hchain x hx)
    refine ⟨hs.simpleCycle hunits hhead hlast hnodup hedges, fun name hname ↦ ?_⟩
    obtain ⟨x, hx, rfl⟩ := List.mem_map.1 hname
    rcases List.mem_append.1 hx with hx | hx
    · exact hvisited x (hchain x hx)
    · rw [List.mem_singleton.1 hx]
      exact hvisited v hin

end State

/-- Whatever was done with a state before, the path that a traversal reports with a circular reference goes once around
a cycle of prerequisites, and no unit on it is visited. -/
theorem reported_path_is_simple_cycle {units seen : List LinkUnit} {extdefs includes : SymbolSet}
    {sink : Option SymbolSet} {s₀ s : State} {policy : Policy} {start : Option (List Symbol)} {unit : String}
    {path : List String} (hbuild : State.build units extdefs includes sink = .ok s₀)
    (hs : Session (fun _ ↦ True) s₀ seen s)
    (herror : (s.traverse policy start).error = some (.circularReference unit path)) :
    s.SimpleCycle unit path ∧ ∀ name ∈ path, (s.traverse policy start).state.isVisited name = false := by
  have h₀ := State.sound_of_build hbuild
  have hground := hs.grounded h₀ (State.fresh_of_build hbuild).grounded
  exact (hs.sound h₀).1.simpleCycle_of_error hground herror

namespace Wheel

def outer : LinkUnit := { name := "outer", defs := ["o"], pres := ["gone", "b"] }

def first : LinkUnit := { name := "first", defs := ["a"], pres := ["b"] }

def second : LinkUnit := { name := "second", defs := ["b", "x"], pres := ["c"] }

def third : LinkUnit := { name := "third", defs := ["c"], pres := ["d", "a"], deps := ["o"] }

def side : LinkUnit := { name := "side", defs := ["d"] }

def fresh : State := { contexts := [outer, first, second, third, side].map ({ unit := · }) }

def broken : State := (fresh.traverse {} (some ["o"])).state

theorem cycle_behind_outer :
    State.build [outer, first, second, third, side] ∅ ∅ none = .ok fresh ∧
      Session (fun _ ↦ True) fresh [] broken ∧
      (broken.traverse {} (some ["o"])).error =
        some (.circularReference "first" ["second", "third", "first", "second"]) ∧
      broken.SimpleCycle "first" ["second", "third", "first", "second"] ∧
      (broken.traverse {} (some ["o"])).visits = [side] ∧
      (broken.traverse {} (some ["o"])).state.isVisited "third" = false := by
  have hbuild : State.build [outer, first, second, third, side] ∅ ∅ none = .ok fresh := rfl
  have hvisits : (fresh.traverse {} (some ["o"])).visits = [] := by decide +kernel
  have hs : Session (fun _ ↦ True) fresh ([] ++ _) broken := .traverse {} (some ["o"]) .start trivial
  rw [hvisits] at hs
  have herror : (broken.traverse {} (some ["o"])).error =
      some (.circularReference "first" ["second", "third", "first", "second"]) := by decide +kernel
  obtain ⟨hcycle, hvisited⟩ := reported_path_is_simple_cycle hbuild hs herror
  exact ⟨hbuild, hs, herror, hcycle, by decide +kernel, hvisited "third" (by simp)⟩

end Wheel

end LinkOrder
