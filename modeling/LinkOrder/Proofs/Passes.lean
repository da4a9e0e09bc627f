import LinkOrder.Proofs.Bookkeeping
import LinkOrder.Proofs.Failure

namespace LinkOrder

open Relation

namespace Walk

variable {policy : Policy} {seeds seeds' : List Symbol} {w w' : Walk} {e : LinkError}

/-- The walk with earlier visits before its own. -/
def after (w : Walk) (before : List LinkUnit) : Walk := { w with visits := before ++ w.visits }

theorem Move.after (h : Move policy seeds w w') (hsub : ∀ name ∈ seeds, name ∈ seeds')
    (before : List LinkUnit) : Move policy seeds' (w.after before) (w'.after before) := by
  cases h with
  | seed hname hdef => exact .seed (w := w.after before) (hsub _ hname) hdef
  | dep hu hd hdef => exact .dep (w := w.after before) hu hd hdef
  | pass hc hp hdef hv => exact .pass (w := w.after before) hc hp hdef hv
  | descend hc hp hv hchain horder => exact .descend (w := w.after before) hc hp hv hchain horder
  | @visit u rest hc hp =>
    have hvisit : (w.visit u rest).after before = (w.after before).visit u rest := by
      simp [Walk.after, Walk.visit]
    rw [hvisit]
    exact .visit hc hp
  | skip hc hq hu => exact .skip (w := w.after before) hc hq hu
  | begin hc hq hu => exact .begin (w := w.after before) hc hq hu

theorem Moves.after (h : Moves policy seeds w w') (hsub : ∀ name ∈ seeds, name ∈ seeds')
    (before : List LinkUnit) : Moves policy seeds' (w.after before) (w'.after before) := by
  induction h with
  | refl => exact .refl
  | tail _ hmove ih => exact ReflTransGen.tail ih (hmove.after hsub before)

theorem Fault.after (h : Fault policy seeds w e w') (hsub : ∀ name ∈ seeds, name ∈ seeds')
    (before : List LinkUnit) : Fault policy seeds' (w.after before) e (w'.after before) := by
  cases h with
  | seed hname hdef => exact .seed (w := w.after before) (hsub _ hname) hdef
  | dep hu hd hdef => exact .dep (w := w.after before) hu hd hdef
  | pre hc hp hdef => exact .pre (w := w.after before) hc hp hdef
  | cycle hc hp hv hchain => exact .cycle (w := w.after before) hc hp hv hchain

theorem enqueueAll_after {names : List Symbol} (h : w.enqueueAll policy names = (none, w'))
    (before : List LinkUnit) :
    (w.after before).enqueueAll policy names = (none, w'.after before) := by
  induction names generalizing w with
  | nil =>
    cases h
    rfl
  | cons name rest ih =>
    unfold enqueueAll at h ⊢
    split at h
    · cases h
    · next w₁ heq =>
      obtain ⟨hdef, rfl⟩ := await_of_enqueue heq
      have hafter : (w.after before).enqueue policy name =
          (none, (w.await policy name).after before) := by
        rw [enqueue_eq]
        exact if_neg hdef
      rw [hafter]
      exact ih h

end Walk

namespace State

open Walk

variable {s t t' : State} {policy : Policy} {start : Option (List Symbol)} {names : List Symbol}
  {name : Symbol} {u : LinkUnit} {D D' M : Symbol → Prop} {e : LinkError}

/-- What successful traversals, one after the other, make of the fresh state `s`. Together they are one walk with
nothing left to do for the seeds taken up, which are those in `D`. -/
structure Passed (policy : Policy) (s : State) (start : Option (List Symbol)) (D : Symbol → Prop)
    (t : State) : Prop where
  moves : Moves policy (s.seeds policy start) ⟨s, [], []⟩ ⟨t, [], t.order⟩
  ready : t.Ready
  drained : ∀ u ∈ t.order, Drained ⟨t, [], t.order⟩ u
  settled : ∀ name, D name → s.Settled policy (· ∈ t.order) name
  ledger : ∃ M, Ledger policy s start M ⟨t, [], t.order⟩ ∧ ∀ name, D name → M name

theorem Fresh.passed (hs : s.Fresh) (policy : Policy) (start : Option (List Symbol)) :
    s.Passed policy start (fun _ ↦ False) s := by
  refine ⟨?_, hs.ready, ?_, fun _ h ↦ h.elim, _, ?_, fun _ h ↦ h⟩
  · rw [hs.order]
    exact .refl
  · intro u hu
    rw [hs.order] at hu
    cases hu
  · rw [hs.order]
    exact hs.ledger policy start

theorem Tally.seed_iff (h : s.Tally policy M t) :
    t.Seed policy (some names) name ↔ s.Seed policy (some names) name := by
  -- Nothing leaves the includes where they are seeds.
  constructor
  · intro hname
    cases hname with
    | given hname => exact .given hname
    | included hp hname => exact .included hp ((h.includes name).1 hname).1
  · intro hname
    cases hname with
    | given hname => exact .given hname
    | included hp hname =>
      refine .included hp ((h.includes name).2 ⟨hname, fun hn ↦ ?_⟩)
      cases hp.symm.trans hn.1

theorem Tally.congr (h : s.Tally policy M t) (h' : s.Tally policy M t') :
    t.unresolved = t'.unresolved ∧ t.extdefs = t'.extdefs ∧ t.includes = t'.includes := by
  refine ⟨?_, ?_, ?_⟩
  · have hmem : t.unresolved.getD ∅ = t'.unresolved.getD ∅ :=
      SymbolSet.ext fun name ↦ (h.unresolved name).trans (h'.unresolved name).symm
    have hsome := h.agrees.unresolved.trans h'.agrees.unresolved.symm
    cases ht : t.unresolved with
    | none => simp_all
    | some set =>
      cases ht' : t'.unresolved with
      | none => simp_all
      | some set' => simp_all
  · exact SymbolSet.ext fun name ↦ (h.extdefs name).trans (h'.extdefs name).symm
  · exact SymbolSet.ext fun name ↦ (h.includes name).trans (h'.includes name).symm

namespace Passed

theorem covered_iff (h : s.Passed policy start D t) :
    Covered ⟨t, [], t.order⟩ u ↔ u ∈ t.order := by
  simp [Covered, h.ready.chain]

theorem mem_seeds (h : s.Passed policy start D t) :
    name ∈ t.seeds policy (some names) ↔ s.Seed policy (some names) name := by
  obtain ⟨M, hl, -⟩ := h.ledger
  exact State.mem_seeds.trans hl.tally.seed_iff

theorem mem_seeds_of_mem (h : s.Passed policy start D t)
    (hsub : ∀ name, s.Seed policy (some names) name → s.Seed policy start name) :
    ∀ name ∈ t.seeds policy (some names), name ∈ s.seeds policy start :=
  fun name hname ↦ State.mem_seeds.2 (hsub name (h.mem_seeds.1 hname))

theorem after_order (t : State) : (⟨t, [], []⟩ : Walk).after t.order = ⟨t, [], t.order⟩ := by
  simp [Walk.after]

theorem drained_of_pass {w₁ w : Walk} (h : s.Passed policy start D t)
    (hseed : Walk.enqueueAll ⟨t, [], []⟩ policy (t.seeds policy (some names)) = (none, w₁))
    (hsteps : Steps policy w₁ w) : ∀ u ∈ w.state.order, w.Drained u := by
  have hmoves := moves_of_enqueueAll hseed
  have ho := (h.ready.orderly policy).moves hmoves
  have hvisits := visits_enqueueAll ⟨t, [], []⟩ policy (t.seeds policy (some names))
  rw [hseed] at hvisits
  refine drained_of_steps ho (fun u hu ↦ ?_) hsteps
  rw [ho.order, hvisits, List.append_nil] at hu
  exact Drained.moves (w := ⟨t, [], []⟩) (h.drained u hu) hmoves

theorem traverse (hs : s.Fresh) (h : s.Passed policy start D t)
    (hsub : ∀ name, s.Seed policy (some names) name → s.Seed policy start name)
    (hok : (t.traverse policy (some names)).error = none) :
    s.Passed policy start (fun name ↦ D name ∨ s.Seed policy (some names) name)
      (t.traverse policy (some names)).state := by
  obtain ⟨w₁, w, hseed, hsteps, hchain, hqueue, heq⟩ := traverse_of_ok hok
  have hsub' := h.mem_seeds_of_mem hsub
  have hmoves₁ := moves_of_enqueueAll hseed
  have hmoves₂ : Moves policy (t.seeds policy (some names)) w₁ w := moves_of_steps _ hsteps
  have ho := (h.ready.orderly policy).moves (hmoves₁.trans hmoves₂)
  have hend : w.after t.order = ⟨w.state, [], w.state.order⟩ := by
    rw [ho.order, ← hqueue]
    rfl
  have hlift₁ := hmoves₁.after hsub' t.order
  have hlift₂ := hmoves₂.after hsub' t.order
  rw [after_order] at hlift₁
  rw [hend] at hlift₂
  obtain ⟨ho', hw', -⟩ := hs.moves h.moves
  obtain ⟨M, hl, hM⟩ := h.ledger
  have hseed' := enqueueAll_after hseed t.order
  rw [after_order] at hseed'
  obtain ⟨M₁, hl₁, hM₁⟩ := hl.enqueueAll ho' hw' hsub' hseed'
  obtain ⟨M₂, hl₂, hM₂⟩ := hl₁.moves hs (h.moves.trans hlift₁) hlift₂
  have hcovered : ∀ v, w.Covered v → v ∈ w.state.order := by
    intro v hv
    simpa [Covered, hchain, hqueue] using hv
  have hready := (h.ready.traverse hok).1
  rw [heq] at hready ⊢
  refine ⟨(h.moves.trans hlift₁).trans hlift₂, hready, h.drained_of_pass hseed hsteps, ?_, M₂, hl₂, ?_⟩
  · rintro name (hname | hname)
    · refine (h.settled name hname).mono fun v hv ↦ ?_
      rw [ho.order]
      exact List.mem_append_left _ hv
    · have hset := settled_enqueueAll ho'.agrees hseed' name (h.mem_seeds.2 hname)
      exact hset.mono fun v hv ↦ hcovered v (hmoves₂.covered hv)
  · rintro name (hname | hname)
    · exact hM₂ name (hM₁ name (.inl (hM name hname)))
    · exact hM₂ name (hM₁ name (.inr (h.mem_seeds.2 hname)))

theorem of_error (hs : s.Fresh) (h : s.Passed policy start D t)
    (hsub : ∀ name, s.Seed policy (some names) name → s.Seed policy start name)
    (herr : (t.traverse policy (some names)).error = some e) :
    ¬s.Acyclic policy start ∨ ∃ name, s.Missing policy start name ∧ s.unresolved = none := by
  obtain ⟨w, w', hmoves, hfault, -⟩ := moves_of_error h.ready.chain herr
  have hsub' := h.mem_seeds_of_mem hsub
  have hlift := hmoves.after hsub' t.order
  rw [after_order] at hlift
  obtain ⟨ho, hw, -⟩ := hs.moves (h.moves.trans hlift)
  rcases of_fault ho hw (hfault.after hsub' t.order) with ⟨-, hcycle⟩ | ⟨name, -, hmissing⟩
  · exact .inl hcycle
  · exact .inr ⟨name, hmissing⟩

theorem closed (hs : s.Fresh) (h : s.Passed policy start D t)
    (hD : ∀ name, s.Seed policy start name → D name) : s.Closed policy start (· ∈ t.order) := by
  refine hs.closed_of_moves h.moves (fun name hname ↦ ?_) (fun u ↦ h.covered_iff) h.drained
  exact (h.settled name (hD name hname)).mono fun v ↦ h.covered_iff.2

theorem succeeds (hs : s.Fresh) (h : s.Passed policy start D t)
    (hD : ∀ name, s.Seed policy start name → D name) (h' : s.Passed policy start D' t')
    (hsub : ∀ name, s.Seed policy (some names) name → s.Seed policy start name) :
    (t'.traverse policy (some names)).error = none := by
  have hclosed := h.closed hs hD
  cases herr : (t'.traverse policy (some names)).error with
  | none => rfl
  | some e =>
    rcases h'.of_error hs hsub herr with hcycle | ⟨name, hmissing, hnone⟩
    · exact absurd (hs.acyclic_of_closed (hs.moves h.moves).1 hclosed) hcycle
    · exact absurd hmissing (hclosed.not_missing hnone)

theorem mem_order_iff (hs : s.Fresh) (h : s.Passed policy start D t)
    (hD : ∀ name, s.Seed policy start name → D name) :
    u ∈ t.order ↔ s.Reached policy start u :=
  ⟨fun hu ↦ (hs.moves h.moves).2.1.reached u (.inl hu), (h.closed hs hD).of_reached⟩

theorem tally (h : s.Passed policy start D t)
    (hD : ∀ name, s.Seed policy start name → D name) :
    s.Tally policy (s.Referenced policy start t.order) t := by
  obtain ⟨M, hl, hM⟩ := h.ledger
  have hM_eq := referenced_of_ledger hl (fun name hname ↦ hM name (hD name hname))
    (fun u ↦ h.covered_iff) h.drained
  exact hM_eq ▸ hl.tally

theorem agree (hs : s.Fresh) (h : s.Passed policy start D t)
    (hD : ∀ name, s.Seed policy start name → D name) (h' : s.Passed policy start D' t')
    (hD' : ∀ name, s.Seed policy start name → D' name) :
    (∀ u, u ∈ t.order ↔ u ∈ t'.order) ∧ t.unresolved = t'.unresolved ∧ t.extdefs = t'.extdefs ∧
      t.includes = t'.includes := by
  have horder : ∀ u, u ∈ t.order ↔ u ∈ t'.order :=
    fun u ↦ (h.mem_order_iff hs hD).trans (h'.mem_order_iff hs hD').symm
  have href : s.Referenced policy start t.order = s.Referenced policy start t'.order := by
    funext name
    simp only [State.Referenced, horder]
  have htally := h.tally hD
  rw [href] at htally
  exact ⟨horder, htally.congr (h'.tally hD')⟩

end Passed

theorem seed_append_iff {first second : List Symbol} :
    s.Seed policy (some (first ++ second)) name ↔
      s.Seed policy (some first) name ∨ s.Seed policy (some second) name := by
  constructor
  · intro h
    cases h with
    | given h => exact (List.mem_append.1 h).imp .given .given
    | included hp h => exact .inl (.included hp h)
  · rintro (h | h) <;> cases h with
    | given h => exact .given (by simp [h])
    | included hp h => exact .included hp h

end State

/-- Linking in two passes succeeds if and only if linking at once does, and ends with the same units visited and
the same symbol sets. -/
theorem passes_agree_with_at_once {units : List LinkUnit} {extdefs includes : SymbolSet}
    {sink : Option SymbolSet} {s : State}
    (hbuild : State.build units extdefs includes sink = .ok s) (policy : Policy)
    (first second : List Symbol) :
    let atOnce := s.traverse policy (some (first ++ second))
    let pass := s.traverse policy (some first)
    let next := pass.state.traverse policy (some second)
    (atOnce.error = none ↔ pass.error = none ∧ next.error = none) ∧
      (atOnce.error = none →
        (∀ u, u ∈ atOnce.state.order ↔ u ∈ next.state.order) ∧
          atOnce.state.unresolved = next.state.unresolved ∧
          atOnce.state.extdefs = next.state.extdefs ∧
          atOnce.state.includes = next.state.includes) := by
  intro atOnce pass next
  have hs := State.fresh_of_build hbuild
  have h₀ := hs.passed policy (some (first ++ second))
  have hfirst : ∀ name, s.Seed policy (some first) name →
      s.Seed policy (some (first ++ second)) name := fun _ h ↦ State.seed_append_iff.2 (.inl h)
  have hsecond : ∀ name, s.Seed policy (some second) name →
      s.Seed policy (some (first ++ second)) name := fun _ h ↦ State.seed_append_iff.2 (.inr h)
  have honce := h₀.traverse hs (fun _ ↦ id)
  have hpass := h₀.traverse hs hfirst
  have hnext := fun hok ↦ (hpass hok).traverse hs hsecond
  have hall : ∀ name, s.Seed policy (some (first ++ second)) name →
      (False ∨ s.Seed policy (some first) name) ∨ s.Seed policy (some second) name :=
    fun name hname ↦ (State.seed_append_iff.1 hname).imp_left .inr
  have hiff : atOnce.error = none ↔ pass.error = none ∧ next.error = none := by
    constructor
    · intro hok
      have hok₁ := (honce hok).succeeds hs (fun _ ↦ .inr) h₀ hfirst
      exact ⟨hok₁, (honce hok).succeeds hs (fun _ ↦ .inr) (hpass hok₁) hsecond⟩
    · rintro ⟨hok₁, hok₂⟩
      exact (hnext hok₁ hok₂).succeeds hs hall h₀ fun _ ↦ id
  refine ⟨hiff, fun hok ↦ ?_⟩
  obtain ⟨hok₁, hok₂⟩ := hiff.1 hok
  exact (honce hok).agree hs (fun _ ↦ .inr) (hnext hok₁ hok₂) hall

theorem Tangle.main_after_ext :
    State.build units (.ofList ["ext"]) (.ofList ["loop", "knot"]) (some ∅) = .ok fresh ∧
      (fresh.traverse {} (some ["ext", "ground", "main"])).error = none ∧
      ((fresh.traverse {} (some ["ext", "ground"])).state.traverse {} (some ["main"])).error = none ∧
      (fresh.traverse {} (some ["ext", "ground", "main"])).state.includes =
        ((fresh.traverse {} (some ["ext", "ground"])).state.traverse {} (some ["main"])).state.includes ∧
      (fresh.traverse {} (some ["ext", "ground", "knot"])).error ≠ none ∧
      ((fresh.traverse {} (some ["ext", "ground"])).state.traverse {} (some ["knot"])).error ≠ none := by
  have hok : (fresh.traverse {} (some ["ext", "ground", "main"])).error = none := by decide +kernel
  have hfail : (fresh.traverse {} (some ["ext", "ground", "knot"])).error ≠ none := by decide +kernel
  have hpass : (fresh.traverse {} (some ["ext", "ground"])).error = none := by decide +kernel
  have hmain := passes_agree_with_at_once build_eq_fresh {} ["ext", "ground"] ["main"]
  have hknot := passes_agree_with_at_once build_eq_fresh {} ["ext", "ground"] ["knot"]
  exact ⟨build_eq_fresh, hok, (hmain.1.1 hok).2, (hmain.2 hok).2.2.2, hfail,
    fun h ↦ hfail (hknot.1.2 ⟨hpass, h⟩)⟩

end LinkOrder
