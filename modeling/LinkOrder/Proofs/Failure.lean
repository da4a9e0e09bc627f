import LinkOrder.Proofs.Reachability

namespace LinkOrder

open Relation Walk

namespace State

variable {s : State} {policy : Policy} {start : Option (List Symbol)} {w w' : Walk}
  {u v : LinkUnit} {name : Symbol} {e : LinkError}

/-- No unit that is reached requires itself, neither directly nor through others. -/
def Acyclic (s : State) (policy : Policy) (start : Option (List Symbol)) : Prop :=
  ∀ u, s.Reached policy start u → ¬TransGen (s.Requires policy) u u

/-- The seeds, and the references that are followed of units that are reached. -/
inductive Met (s : State) (policy : Policy) (start : Option (List Symbol)) : Symbol → Prop
  | seed {name : Symbol} : s.Seed policy start name → Met s policy start name
  | pre {u : LinkUnit} {p : Symbol} : s.Reached policy start u → p ∈ u.pres → Met s policy start p
  | dep {u : LinkUnit} {d : Symbol} : s.Reached policy start u → policy.inheritanceOnly = false →
      d ∈ u.deps → Met s policy start d

def Missing (s : State) (policy : Policy) (start : Option (List Symbol)) (name : Symbol) : Prop :=
  s.Met policy start name ∧ s.Undefined policy name

theorem undefined_of_resolve {t : State} (h : Agrees policy s t)
    (hdef : (t.resolve policy name).1 = .undefined) :
    s.Undefined policy name ∧ s.unresolved = none := by
  obtain ⟨hu, hnone⟩ := resolve_eq_undefined_iff.1 hdef
  exact ⟨h.undefined_iff.1 hu, h.unresolved_eq_none_iff.1 hnone⟩

theorem requires_of_path {rest : List LinkUnit}
    (h : (u :: rest).IsChain fun v u ↦ s.Requires policy u v) (hv : v ∈ u :: rest) :
    ReflTransGen (s.Requires policy) v u := by
  induction rest generalizing u with
  | nil =>
    rw [List.mem_singleton.1 hv]
  | cons x rest ih =>
    obtain ⟨hxu, hpath⟩ := List.isChain_cons_cons.1 h
    rcases List.mem_cons.1 hv with rfl | hv
    · exact .refl
    · exact (ih hpath hv).tail hxu

theorem of_fault (ho : Orderly policy s w) (hw : Within policy s start w)
    (h : Fault policy (s.seeds policy start) w e w') :
    (∃ unit path, e = .circularReference unit path) ∧ ¬s.Acyclic policy start ∨
      ∃ name, e = .undefinedSymbol name ∧ s.Missing policy start name ∧ s.unresolved = none := by
  cases h with
  | @seed name hname hdef =>
    obtain ⟨hu, hnone⟩ := undefined_of_resolve ho.agrees hdef
    exact .inr ⟨name, rfl, ⟨.seed (mem_seeds.1 hname), hu⟩, hnone⟩
  | @dep u d hu hd hdef =>
    obtain ⟨hundef, hnone⟩ :=
      undefined_of_resolve (ho.agrees.trans (.update Context.dropDep_unit policy w.state u)) hdef
    obtain ⟨ps, ds, hk⟩ := exists_cursor_of_dep? hd
    obtain ⟨hi, hmem⟩ := Policy.mem_depsOf.1 (hw.deps u _ hk d List.mem_cons_self)
    exact .inr ⟨d, rfl, ⟨.dep (hw.reached u (.inl hu)) hi hmem, hundef⟩, hnone⟩
  | @pre u p rest hc hp hdef =>
    obtain ⟨hundef, hnone⟩ :=
      undefined_of_resolve (ho.agrees.trans (.update Context.dropPre_unit policy w.state u)) hdef
    obtain ⟨ps, ds, hk⟩ := exists_cursor_of_pre? hp
    have hu := hw.reached u (.inr (.inl (hc ▸ List.mem_cons_self)))
    exact .inr ⟨p, rfl, ⟨.pre hu (hw.pres u _ hk p List.mem_cons_self), hundef⟩, hnone⟩
  | @cycle u v p rest hc hp hv hin =>
    obtain ⟨ps, ds, hk⟩ := exists_cursor_of_pre? hp
    have hu := hw.reached u (.inr (.inl (hc ▸ List.mem_cons_self)))
    have huv : s.Requires policy u v :=
      ⟨p, hw.pres u _ hk p List.mem_cons_self, ho.agrees.resolves_iff.1 hv⟩
    have hpath := hw.path
    rw [hc] at hpath hin
    exact .inl ⟨⟨_, _, rfl⟩, fun h ↦ h u hu (.head' huv (requires_of_path hpath hin))⟩

theorem Fresh.mem_before (hs : s.Fresh) (ho : Orderly policy s w) {before after : List LinkUnit}
    (hsplit : w.visits = before ++ u :: after) (h : TransGen (s.Requires policy) u v) :
    v ∈ before := by
  have hstep : ∀ before after x y, w.visits = before ++ x :: after → s.Requires policy x y →
      y ∈ before := by
    rintro before after x y hsplit ⟨p, hp, hy⟩
    have hmem := (ho.ordered before x after hsplit p hp).target y hy
    rwa [hs.order, List.nil_append] at hmem
  induction h with
  | single h => exact hstep before after u _ hsplit h
  | @tail x y _ h ih =>
    obtain ⟨first, mid, rfl⟩ := List.append_of_mem ih
    refine List.mem_append_left _ (hstep first (mid ++ u :: after) x y ?_ h)
    rw [hsplit, List.append_assoc, List.cons_append]

theorem Fresh.acyclic_of_closed (hs : s.Fresh) (ho : Orderly policy s w)
    (h : s.Closed policy start (· ∈ w.visits)) : s.Acyclic policy start := by
  intro u hu hcycle
  obtain ⟨before, after, hsplit⟩ := List.append_of_mem (h.of_reached hu)
  have hbefore := hs.mem_before ho hsplit hcycle
  exact ho.not_mem_before hsplit (List.mem_append_right _ hbefore)

theorem Fresh.acyclic (hs : s.Fresh) (h : (s.traverse policy start).error = none) :
    s.Acyclic policy start := by
  have hclosed := hs.closed_visits h
  obtain ⟨w, hmoves, -, -, heq⟩ := moves_of_ok h
  rw [heq] at hclosed
  exact hs.acyclic_of_closed (hs.moves hmoves).1 hclosed

theorem Closed.not_missing {S : LinkUnit → Prop} (h : s.Closed policy start S)
    (hnone : s.unresolved = none) : ¬s.Missing policy start name := by
  rintro ⟨hmet, hundef⟩
  have hset : s.Settled policy S name := by
    cases hmet with
    | seed hname => exact h.seed name hname
    | pre hu hp => exact h.pre _ (h.of_reached hu) name hp
    | dep hu hi hd => exact h.dep _ (h.of_reached hu) name (Policy.mem_depsOf.2 ⟨hi, hd⟩)
  exact hset.defined hnone hundef

theorem Fresh.not_missing (hs : s.Fresh) (h : (s.traverse policy start).error = none)
    (hnone : s.unresolved = none) : ¬s.Missing policy start name :=
  (hs.closed_visits h).not_missing hnone

theorem Fresh.of_error (hs : s.Fresh) (h : (s.traverse policy start).error = some e) :
    (∃ unit path, e = .circularReference unit path) ∧ ¬s.Acyclic policy start ∨
      ∃ name, e = .undefinedSymbol name ∧ s.Missing policy start name ∧ s.unresolved = none := by
  obtain ⟨w, w', hmoves, hfault, -⟩ := moves_of_error hs.chain h
  obtain ⟨ho, hw, -⟩ := hs.moves hmoves
  exact of_fault ho hw hfault

end State

/-- A traversal of a state just built succeeds if and only if the units that are reached have no cycle of
prerequisites and, unless the state collects them, no symbol that is met is without an owner. Otherwise
the error names which of the two is violated, and in the latter case such a symbol. -/
theorem succeeds_iff_acyclic_and_defined {units : List LinkUnit} {extdefs includes : SymbolSet}
    {sink : Option SymbolSet} {s : State} (policy : Policy) (start : Option (List Symbol))
    (hbuild : State.build units extdefs includes sink = .ok s) :
    ((s.traverse policy start).error = none ↔
      s.Acyclic policy start ∧
        (s.unresolved.isSome ∨ ∀ name, ¬s.Missing policy start name)) ∧
      ∀ e, (s.traverse policy start).error = some e →
        (∃ unit path, e = .circularReference unit path) ∧ ¬s.Acyclic policy start ∨
          ∃ name, e = .undefinedSymbol name ∧ s.Missing policy start name ∧
            s.unresolved = none := by
  have hs := State.fresh_of_build hbuild
  refine ⟨⟨fun hok ↦ ⟨hs.acyclic hok, ?_⟩, ?_⟩, fun e he ↦ hs.of_error he⟩
  · cases hsink : s.unresolved with
    | none => exact .inr fun name ↦ hs.not_missing hok hsink
    | some set => exact .inl rfl
  · rintro ⟨hacyclic, hdefined⟩
    cases he : (s.traverse policy start).error with
    | none => rfl
    | some e =>
      rcases hs.of_error he with ⟨-, hcycle⟩ | ⟨name, -, hmissing, hnone⟩
      · exact absurd hacyclic hcycle
      · rcases hdefined with hsink | hdefined
        · rw [hnone] at hsink
          cases hsink
        · exact absurd hmissing (hdefined name)

theorem Tangle.knot_fails :
    State.build units (.ofList ["ext"]) (.ofList ["loop", "knot"]) (some ∅) = .ok fresh ∧
      ((fresh.traverse policy (some ["main"])).error = none ∧
        fresh.Acyclic policy (some ["main"])) ∧
      (fresh.traverse policy (some ["knot"])).error =
        some (.circularReference "knot" ["knot", "knot"]) ∧
      ¬fresh.Acyclic policy (some ["knot"]) := by
  have hok : (fresh.traverse policy (some ["main"])).error = none := by decide +kernel
  have herr : (fresh.traverse policy (some ["knot"])).error =
      some (.circularReference "knot" ["knot", "knot"]) := by decide +kernel
  have hmain := succeeds_iff_acyclic_and_defined policy (some ["main"]) build_eq_fresh
  have hknot := succeeds_iff_acyclic_and_defined policy (some ["knot"]) build_eq_fresh
  refine ⟨build_eq_fresh, ⟨hok, (hmain.1.1 hok).1⟩, herr, ?_⟩
  rcases hknot.2 _ herr with ⟨-, hcycle⟩ | ⟨name, heq, -⟩
  · exact hcycle
  · cases heq

end LinkOrder
