import LinkOrder.Proofs.Simulation
import LinkOrder.Proofs.VisitOrder

namespace LinkOrder

namespace State

variable {s₀ s t : State} {policy : Policy} {name : Symbol}

/-- `t` is `s` with a set for unresolved symbols, and none of those in it so far is undefined. -/
structure Lenient (policy : Policy) (s₀ s t : State) : Prop where
  agrees : s₀.Agrees policy s
  strict : s.unresolved = none
  sink : ∃ set, t = { s with unresolved := some set } ∧ ∀ name ∈ set, ¬s₀.Undefined policy name

theorem resolve_with_sink (set : SymbolSet) (hname : ¬s.Undefined policy name) :
    ∃ set', resolve { s with unresolved := some set } policy name =
        ((s.resolve policy name).1, { (s.resolve policy name).2 with unresolved := some set' }) ∧
      ∀ n ∈ set', n = name ∨ n ∈ set := by
  have howner : owner? { s with unresolved := some set } name = s.owner? name := rfl
  have hinsert : ∀ n ∈ set.insert name, n = name ∨ n ∈ set := fun n ↦ SymbolSet.mem_insert.1
  unfold resolve
  rw [howner]
  by_cases hext : policy.allowExternal ∧ name ∈ s.extdefs
  · rw [if_pos hext, if_pos hext]
    exact ⟨set.insert name, rfl, hinsert⟩
  · rw [if_neg hext, if_neg hext]
    cases ho : s.owner? name with
    | none => exact absurd ⟨hext, ho⟩ hname
    | some u =>
      cases hn : u.native with
      | true => exact ⟨set.insert name, by simp [hn, record, reach], hinsert⟩
      | false => exact ⟨set, by simp [hn, link, reach, update], fun n ↦ .inr⟩

namespace Lenient

theorem undefined_iff (h : Lenient policy s₀ s t) :
    t.Undefined policy name ↔ s₀.Undefined policy name := by
  obtain ⟨hagrees, -, set, rfl, -⟩ := h
  exact hagrees.undefined_iff

theorem chain (h : Lenient policy s₀ s t) : t.chain = s.chain := by
  obtain ⟨-, -, set, rfl, -⟩ := h
  rfl

theorem order (h : Lenient policy s₀ s t) : t.order = s.order := by
  obtain ⟨-, -, set, rfl, -⟩ := h
  rfl

theorem pre? (h : Lenient policy s₀ s t) (u : LinkUnit) : t.pre? u = s.pre? u := by
  obtain ⟨-, -, set, rfl, -⟩ := h
  rfl

theorem dep? (h : Lenient policy s₀ s t) (u : LinkUnit) : t.dep? u = s.dep? u := by
  obtain ⟨-, -, set, rfl, -⟩ := h
  rfl

theorem with_trail {order order' : List LinkUnit} (h : Lenient policy s₀ s t) (chain : List LinkUnit)
    (horder : order' = order) :
    Lenient policy s₀ { s with chain, order } { t with chain, order := order' } := by
  obtain ⟨hagrees, hstrict, set, rfl, hset⟩ := h
  subst horder
  exact ⟨⟨hagrees.units, hagrees.extdefs, hagrees.unresolved⟩, hstrict, set, rfl, hset⟩

theorem update {f : Context → Context} (hf : ∀ c, (f c).unit = c.unit) (h : Lenient policy s₀ s t)
    (u : LinkUnit) : Lenient policy s₀ (s.update u f) (t.update u f) := by
  obtain ⟨hagrees, hstrict, set, rfl, hset⟩ := h
  exact ⟨hagrees.trans (.update hf policy s u), hstrict, set, rfl, hset⟩

theorem resolve (h : Lenient policy s₀ s t) (hname : ¬s₀.Undefined policy name) :
    (t.resolve policy name).1 = (s.resolve policy name).1 ∧
      Lenient policy s₀ (s.resolve policy name).2 (t.resolve policy name).2 := by
  obtain ⟨hagrees, hstrict, set, rfl, hset⟩ := h
  have hagrees' := Agrees.resolve policy s name
  obtain ⟨set', heq, hset'⟩ := resolve_with_sink set (mt hagrees.undefined_iff.1 hname)
  rw [heq]
  refine ⟨rfl, hagrees.trans hagrees', hagrees'.unresolved_eq_none_iff.2 hstrict, set', rfl, ?_⟩
  intro n hn
  rcases hset' n hn with rfl | hn
  · exact hname
  · exact hset n hn

theorem resolve_of_undefined (h : Lenient policy s₀ s t) (hname : s₀.Undefined policy name) :
    (s.resolve policy name).1 = .undefined ∧ (t.resolve policy name).1 = .deferred ∧
      name ∈ (t.resolve policy name).2.unresolved.getD ∅ := by
  rw [State.resolve_of_undefined (h.undefined_iff.2 hname)]
  refine ⟨resolve_eq_undefined_iff.2 ⟨h.agrees.undefined_iff.2 hname, h.strict⟩, ?_, ?_⟩
  · obtain ⟨-, -, set, rfl, -⟩ := h
    rfl
  · obtain ⟨-, -, set, rfl, -⟩ := h
    exact mem_record.2 (.inr ⟨rfl, rfl⟩)

/-- The strict link fails on the symbol, which the lenient one collects. -/
def Collects (policy : Policy) (s₀ : State) (name : Symbol) (t : State) : Prop :=
  s₀.Undefined policy name ∧ name ∈ t.unresolved.getD ∅

theorem pairing (policy : Policy) (s₀ : State) :
    Walk.Pairing policy policy (fun _ ↦ True) (Lenient policy s₀) (Collects policy s₀) where
  chain := chain
  order := order
  with_trail := with_trail
  resolve {s t name} h _ := by
    by_cases hname : s₀.Undefined policy name
    · obtain ⟨hstrict, hlenient, hmem⟩ := h.resolve_of_undefined hname
      exact .inr ⟨hstrict, hlenient, hname, hmem⟩
    · exact .inl (h.resolve hname)
  skips hmem h := ⟨h.1, hmem _ h.2⟩

theorem simulation (h : Lenient policy s₀ s t) (seeds : List Symbol) :
    Walk.Simulation policy policy seeds s t (fun _ ↦ True) (Lenient policy s₀) (Collects policy s₀) (· = []) where
  toPairing := pairing policy s₀
  start := h
  seed _ _ := trivial
  extra := rfl
  pre {_ _ u _} _ _ h _ := ⟨h.state.pre? u, fun _ _ ↦ ⟨trivial, h.state.update Context.dropPre_unit u⟩⟩
  deps {_ _ u rest} _ _ h _ :=
    (pairing policy s₀).followDeps (fun h ↦ h.dep? u) (fun h ↦ h.update Context.dropDep_unit u)
      ((pairing policy s₀).visit h u rest) (List.mem_append_right _ List.mem_cons_self) fun _ _ _ _ ↦ trivial

end Lenient

end State

theorem State.not_undefined_iff {s : State} {policy : Policy} {name : Symbol} :
    ¬s.Undefined policy name ↔
      (s.owner? name).isSome ∨ policy.allowExternal ∧ name ∈ s.extdefs := by
  unfold State.Undefined
  rw [not_and_or, not_not, or_comm, ← ne_eq, Option.isSome_iff_ne_none]

/-- A traversal in which undefined symbols are fatal is the same as one that collects them, up to the first of them: it
visits the same units until then, and comes to the same end if there is none. The set that the lenient traversal
leaves tells whether the strict one succeeds. -/
theorem strict_agrees_up_to_undefined {units : List LinkUnit} {extdefs includes : SymbolSet} {s t : State}
    (hs : State.build units extdefs includes none = .ok s)
    (ht : State.build units extdefs includes (some ∅) = .ok t) (policy : Policy)
    (start : Option (List Symbol)) :
    (s.traverse policy start).visits <+: (t.traverse policy start).visits ∧
      ((∀ name, (s.traverse policy start).error ≠ some (.undefinedSymbol name)) →
        (t.traverse policy start).error = (s.traverse policy start).error ∧
          (t.traverse policy start).visits = (s.traverse policy start).visits ∧
          (t.traverse policy start).state.extdefs = (s.traverse policy start).state.extdefs ∧
          (t.traverse policy start).state.includes = (s.traverse policy start).state.includes) ∧
      ((t.traverse policy start).error = none →
        ∃ collected, (t.traverse policy start).state.unresolved = some collected ∧
          ((s.traverse policy start).error = none ↔
            ∀ name ∈ collected,
              (s.owner? name).isSome ∨ policy.allowExternal ∧ name ∈ extdefs)) := by
  have hs' := State.eq_of_build hs
  have hsink : t = { s with unresolved := some ∅ } := by rw [State.eq_of_build ht, hs']
  have hextdefs : s.extdefs = extdefs := by rw [hs']
  have hlenient : State.Lenient policy s s t :=
    ⟨.refl policy s, by rw [hs'], ∅, hsink, fun name hname ↦ absurd hname (SymbolSet.not_mem_empty name)⟩
  have hseeds : t.seeds policy start = s.seeds policy start := by rw [hsink]; rfl
  have hends := (hlenient.simulation (s.seeds policy start)).traverse hseeds
  obtain ⟨M, htally⟩ := State.exists_tally (State.fresh_of_build ht).chain policy start
  have hsome : (t.traverse policy start).state.unresolved.isSome := by
    rw [htally.agrees.unresolved, hsink]
    rfl
  obtain ⟨collected, hcollected⟩ := Option.isSome_iff_exists.1 hsome
  have hdefined : ∀ name, ¬s.Undefined policy name ↔
      (s.owner? name).isSome ∨ policy.allowExternal ∧ name ∈ extdefs := by
    intro name
    rw [State.not_undefined_iff, hextdefs]
  generalize s.traverse policy start = strict at hends ⊢
  generalize t.traverse policy start = lenient at hends hcollected ⊢
  cases hends with
  | @same visits error s₁ t₁ hend =>
    obtain ⟨-, -, set, rfl, hset⟩ := hend
    cases hcollected
    refine ⟨List.prefix_refl _, fun _ ↦ ⟨rfl, rfl, rfl, rfl⟩, fun hok ↦ ⟨collected, rfl, ?_⟩⟩
    exact ⟨fun _ name hname ↦ (hdefined name).1 (hset name hname), fun _ ↦ hok⟩
  | @past _ _ name herror hskips hvisits =>
    obtain ⟨hname, hmem⟩ := hskips
    rw [hcollected] at hmem
    refine ⟨hvisits, fun hne ↦ absurd herror (hne name), fun _ ↦ ⟨collected, hcollected, ?_, ?_⟩⟩
    · intro hok
      rw [hok] at herror
      cases herror
    · intro hall
      exact absurd hname ((hdefined name).2 (hall name hmem))
  | early hmore hne => exact absurd hmore hne

namespace Workshop

def tool : LinkUnit := { name := "tool", defs := ["tool"], pres := ["base"], deps := ["gone", "late"] }

def base : LinkUnit := { name := "base", defs := ["base"] }

def late : LinkUnit := { name := "late", defs := ["late"], pres := ["ext"] }

def policy : Policy := { allowExternal := true }

def strict : State :=
  { contexts := [tool, base, late].map ({ unit := · }), extdefs := .ofList ["ext"] }

def lenient : State := { strict with unresolved := some ∅ }

theorem tool_stops_at_gone :
    State.build [tool, base, late] (.ofList ["ext"]) ∅ none = .ok strict ∧
      State.build [tool, base, late] (.ofList ["ext"]) ∅ (some ∅) = .ok lenient ∧
      ((strict.traverse policy (some ["tool"])).error = some (.undefinedSymbol "gone") ∧
        [base, tool] <+: (lenient.traverse policy (some ["tool"])).visits ∧
        ∃ collected, (lenient.traverse policy (some ["tool"])).state.unresolved = some collected ∧
          ¬∀ name ∈ collected,
            (strict.owner? name).isSome ∨ policy.allowExternal ∧ name ∈ SymbolSet.ofList ["ext"]) ∧
      (lenient.traverse policy (some ["late"])).error = none ∧
      (lenient.traverse policy (some ["late"])).visits = [late] := by
  have hs : State.build [tool, base, late] (.ofList ["ext"]) ∅ none = .ok strict := rfl
  have ht : State.build [tool, base, late] (.ofList ["ext"]) ∅ (some ∅) = .ok lenient := rfl
  have herror : (strict.traverse policy (some ["tool"])).error = some (.undefinedSymbol "gone") := by
    decide +kernel
  have hvisits : (strict.traverse policy (some ["tool"])).visits = [base, tool] := by decide +kernel
  have hok : (lenient.traverse policy (some ["tool"])).error = none := by decide +kernel
  have hlate : (strict.traverse policy (some ["late"])).error = none := by decide +kernel
  obtain ⟨hbefore, -, hcollects⟩ := strict_agrees_up_to_undefined hs ht policy (some ["tool"])
  obtain ⟨collected, hcollected, hiff⟩ := hcollects hok
  obtain ⟨-, hsame, -⟩ := strict_agrees_up_to_undefined hs ht policy (some ["late"])
  obtain ⟨herror', hvisits', -⟩ := hsame (by simp [hlate])
  refine ⟨hs, ht, ⟨herror, hvisits ▸ hbefore, collected, hcollected, fun hall ↦ ?_⟩, ?_, ?_⟩
  · rw [hiff.2 hall] at herror
    cases herror
  · exact herror'.trans hlate
  · rw [hvisits']
    decide +kernel

end Workshop

end LinkOrder
