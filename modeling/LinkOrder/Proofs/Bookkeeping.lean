import LinkOrder.Proofs.Construction
import LinkOrder.Proofs.Reachability
import LinkOrder.Proofs.Tally

namespace LinkOrder

open Relation

namespace Walk

variable {policy : Policy} {seeds : List Symbol} {start : Option (List Symbol)} {s : State}
  {w w' : Walk} {u : LinkUnit} {M N : Symbol → Prop}

theorem Move.visited (h : Move policy seeds w w') (hu : u ∈ w'.state.order) :
    u ∈ w.state.order ∨ u ∈ w.state.chain ∧ w.state.pre? u = none := by
  rcases h.trail with ⟨-, ho, -⟩ | ⟨v, -, -, -, ho, -⟩ | ⟨v, hc, hp, ho, -⟩ <;> rw [ho] at hu
  · exact .inl hu
  · exact .inl hu
  · rcases List.mem_append.1 hu with hu | hu
    · exact .inl hu
    · obtain rfl := List.mem_singleton.1 hu
      exact .inr ⟨hc ▸ List.mem_cons_self, hp⟩

/-- What the moves of a walk from a fresh state keep, `M` being the symbols resolved so far: they are off a
cursor that had all references of its unit, and for visited units no prerequisite is missing among them. -/
structure Ledger (policy : Policy) (s : State) (start : Option (List Symbol)) (M : Symbol → Prop)
    (w : Walk) : Prop where
  tally : s.Tally policy M w.state
  source : ∀ name, M name → s.Seed policy start name ∨
    ∃ u, w.Covered u ∧ (name ∈ u.pres ∨ name ∈ policy.depsOf u)
  cursor : ∀ u k, w.state.cursor? u = some k → Cursor.Drops M ⟨u.pres, policy.depsOf u⟩ k
  visited : ∀ u ∈ w.state.order, ∀ p ∈ u.pres, M p

namespace Ledger

theorem move (hl : Ledger policy s start M w) (ho : Orderly policy s w) (hw : Within policy s start w)
    (h : Move policy (s.seeds policy start) w w')
    (hf : Follows policy (s.seeds policy start) N w w') :
    Ledger policy s start (fun name ↦ M name ∨ N name) w' := by
  refine ⟨hl.tally.trans hf.tally, ?_, ?_, ?_⟩
  · rintro name (hname | hname)
    · refine (hl.source name hname).imp_right ?_
      rintro ⟨u, hu, href⟩
      exact ⟨u, h.covered hu, href⟩
    · rcases hf.source name hname with hseed | ⟨u, k, hu, hk, hin⟩
      · exact .inl (State.mem_seeds.1 hseed)
      · exact .inr ⟨u, h.covered hu, hin.imp (hw.pres u k hk name) (hw.deps u k hk name)⟩
  · intro u k' hk'
    cases hk : w.state.cursor? u with
    | none =>
      rcases h.cursor u with heq | ⟨-, heq⟩ | ⟨_, _, _, heq, -⟩ | ⟨_, _, _, heq, -⟩
      · cases hk'.symm.trans (heq.trans hk)
      · cases hk'.symm.trans heq
        exact .refl _ _
      · cases heq.symm.trans hk
      · cases heq.symm.trans hk
    | some k =>
      obtain ⟨k'', hk'', hdrops⟩ := hf.cursor u k hk
      cases hk''.symm.trans hk'
      exact (hl.cursor u k hk).trans hdrops
  · intro u hu p hp
    rcases h.visited hu with hu | ⟨hu, hpre⟩
    · exact .inl (hl.visited u hu p hp)
    · obtain ⟨k, hk⟩ := ho.exists_cursor (.inr (.inl hu))
      have hp' := (hl.cursor u k hk).pres p hp
      rw [State.pres_eq_nil_of_pre? hpre hk] at hp'
      exact .inl (hp'.resolve_left List.not_mem_nil)

theorem enqueueAll {names : List Symbol} (hl : Ledger policy s start M w) (ho : Orderly policy s w)
    (hw : Within policy s start w) (hnames : ∀ name ∈ names, name ∈ s.seeds policy start)
    (h : w.enqueueAll policy names = (none, w')) :
    ∃ M', Ledger policy s start M' w' ∧ ∀ name, M name ∨ name ∈ names → M' name := by
  induction names generalizing w M with
  | nil =>
    cases h
    exact ⟨M, hl, fun name hname ↦ hname.resolve_right List.not_mem_nil⟩
  | cons name rest ih =>
    unfold Walk.enqueueAll at h
    split at h
    · cases h
    · next w₁ heq =>
      obtain ⟨hdef, rfl⟩ := await_of_enqueue heq
      have hname := hnames name List.mem_cons_self
      have hmove : Move policy (s.seeds policy start) w (w.await policy name) := .seed hname hdef
      have hnext := hl.move ho hw hmove (follows_await hname)
      obtain ⟨M', hl', hM'⟩ := ih hnext (ho.move hmove) (hw.move ho hmove)
        (fun n hn ↦ hnames n (List.mem_cons_of_mem _ hn)) h
      refine ⟨M', hl', fun n hn ↦ hM' n ?_⟩
      rw [List.mem_cons] at hn
      tauto

theorem moves (hl : Ledger policy s start M w) (hs : s.Fresh)
    (hw : Moves policy (s.seeds policy start) ⟨s, [], []⟩ w)
    (h : Moves policy (s.seeds policy start) w w') :
    ∃ M', Ledger policy s start M' w' ∧ ∀ name, M name → M' name := by
  induction h with
  | refl => exact ⟨M, hl, fun _ ↦ id⟩
  | tail hmoves hmove ih =>
    obtain ⟨M', hl', hM'⟩ := ih
    obtain ⟨ho, hwithin, -⟩ := hs.moves (hw.trans hmoves)
    obtain ⟨N, hf⟩ := hmove.follows
    exact ⟨_, hl'.move ho hwithin hmove hf, fun name hname ↦ .inl (hM' name hname)⟩

end Ledger

end Walk

namespace State

open Walk

variable {s : State} {policy : Policy} {start : Option (List Symbol)} {name : Symbol}

/-- The seeds, and the references that are followed of the units in `visits`. -/
def Referenced (s : State) (policy : Policy) (start : Option (List Symbol))
    (visits : List LinkUnit) (name : Symbol) : Prop :=
  s.Seed policy start name ∨
    ∃ u ∈ visits, name ∈ u.pres ∨ policy.inheritanceOnly = false ∧ name ∈ u.deps

theorem Fresh.ledger (hs : s.Fresh) (policy : Policy) (start : Option (List Symbol)) :
    Ledger policy s start (fun _ ↦ False) ⟨s, [], []⟩ := by
  refine ⟨.refl policy s, fun _ h ↦ h.elim, fun u k hk ↦ ?_, fun u hu ↦ ?_⟩
  · cases (hs.inactive u).symm.trans hk
  · rw [hs.order] at hu
    cases hu

theorem referenced_of_ledger {w : Walk} {M : Symbol → Prop} (hl : Ledger policy s start M w)
    (hseeds : ∀ name, s.Seed policy start name → M name)
    (hcovered : ∀ u, w.Covered u ↔ u ∈ w.state.order)
    (hdrained : ∀ u ∈ w.state.order, w.Drained u) :
    M = s.Referenced policy start w.state.order := by
  funext name
  refine propext ⟨fun hname ↦ ?_, ?_⟩
  · rcases hl.source name hname with hseed | ⟨u, hu, href⟩
    · exact .inl hseed
    · exact .inr ⟨u, (hcovered u).1 hu, href.imp_right Policy.mem_depsOf.1⟩
  · rintro (hname | ⟨u, hu, hp | hd⟩)
    · exact hseeds name hname
    · exact hl.visited u hu name hp
    · obtain ⟨k, hk, hnil⟩ := hdrained u hu
      have hd' := (hl.cursor u k hk).deps name (Policy.mem_depsOf.2 hd)
      rw [hnil] at hd'
      exact hd'.resolve_left List.not_mem_nil

theorem Fresh.tally_referenced (hs : s.Fresh) (h : (s.traverse policy start).error = none) :
    s.Tally policy (s.Referenced policy start (s.traverse policy start).visits)
      (s.traverse policy start).state := by
  obtain ⟨w₁, w, hseed, hmoves, heq, hcovered, hdrained⟩ := hs.exists_walk h
  have hmoves₁ := moves_of_enqueueAll hseed
  obtain ⟨ho, hw, -⟩ := hs.moves (.refl : Moves policy (s.seeds policy start) ⟨s, [], []⟩ _)
  obtain ⟨M₁, hl₁, hM₁⟩ := (hs.ledger policy start).enqueueAll ho hw (fun _ h ↦ h) hseed
  obtain ⟨M, hl, hM⟩ := hl₁.moves hs hmoves₁ hmoves
  have horder : w.state.order = w.visits := by
    rw [(hs.moves (hmoves₁.trans hmoves)).1.order, hs.order, List.nil_append]
  have hM_eq : M = s.Referenced policy start w.state.order := by
    apply referenced_of_ledger hl
    · intro name hname
      exact hM name (hM₁ name (.inr (mem_seeds.2 hname)))
    · exact horder ▸ hcovered
    · exact horder ▸ hdrained
  rw [heq]
  exact horder ▸ hM_eq ▸ hl.tally

theorem Closed.of_referenced {visits : List LinkUnit} {u : LinkUnit}
    (h : s.Closed policy start (· ∈ visits)) (hname : s.Referenced policy start visits name)
    (hu : s.Resolves policy name u) : u ∈ visits := by
  rcases hname with hname | ⟨v, hv, hp | ⟨hi, hd⟩⟩
  · exact (h.seed name hname).target u hu
  · exact (h.pre v hv name hp).target u hu
  · exact (h.dep v hv name (Policy.mem_depsOf.2 ⟨hi, hd⟩)).target u hu

theorem Fresh.isSome_cursor?_iff (hs : s.Fresh) (h : (s.traverse policy start).error = none)
    (u : LinkUnit) :
    ((s.traverse policy start).state.cursor? u).isSome ↔ u ∈ (s.traverse policy start).visits := by
  constructor
  · intro hu
    rcases ((hs.tally_referenced h).active u).1 hu with hu | ⟨name, hname, hres⟩
    · rw [hs.inactive u] at hu
      cases hu
    · exact (hs.closed_visits h).of_referenced hname hres
  · intro hu
    obtain ⟨w, hmoves, -, -, heq⟩ := moves_of_ok h
    obtain ⟨ho, -, -⟩ := hs.moves hmoves
    rw [heq] at hu ⊢
    refine ho.active u (.inl ?_)
    rw [ho.order]
    exact List.mem_append_right _ hu

theorem resolves_iff_of_strict {u : LinkUnit} (h : policy.allowExternal = false) :
    s.Resolves policy name u ↔ s.owner? name = some u ∧ u.native = false :=
  ⟨fun hu ↦ ⟨hu.owner, hu.not_native⟩, fun hu ↦ ⟨by simp [h], hu.1, hu.2⟩⟩

theorem forall_not_resolves_iff : (∀ u, ¬s.Resolves policy name u) ↔
    (policy.allowExternal ∧ name ∈ s.extdefs) ∨ s.owner? name = none ∨
      ∃ u, s.owner? name = some u ∧ u.native = true := by
  constructor
  · intro h
    by_cases he : policy.allowExternal ∧ name ∈ s.extdefs
    · exact .inl he
    · cases ho : s.owner? name with
      | none => exact .inr (.inl rfl)
      | some u =>
        refine .inr (.inr ⟨u, rfl, ?_⟩)
        by_contra hn
        exact h u ⟨he, ho, by simpa using hn⟩
  · rintro (he | ho | ⟨v, ho, hn⟩) u hu
    · exact hu.not_external he
    · cases ho.symm.trans hu.owner
    · cases ho.symm.trans hu.owner
      cases hn.symm.trans hu.not_native

end State

/-- After a traversal of a state just built that succeeds, the symbol sets differ from the initial ones by exactly
what the policy says of the symbols referenced, and the active units are those visited. -/
theorem books_match_references {units visits : List LinkUnit} {extdefs includes : SymbolSet}
    {sink : Option SymbolSet} {s t : State} {policy : Policy} {start : Option (List Symbol)}
    (hbuild : State.build units extdefs includes sink = .ok s)
    (hrun : s.traverse policy start = ⟨visits, none, t⟩) :
    (sink = none → t.unresolved = none) ∧
      (∀ before, sink = some before → ∃ after, t.unresolved = some after ∧
        ∀ name, name ∈ after ↔ name ∈ before ∨ s.Referenced policy start visits name ∧
          ((policy.allowExternal ∧ name ∈ extdefs) ∨ s.owner? name = none ∨
            ∃ u, s.owner? name = some u ∧ u.native = true)) ∧
      (∀ name, name ∈ t.extdefs ↔ name ∈ extdefs ∧
        (policy.allowExternal = true ∨ ¬(s.Referenced policy start visits name ∧
          ∃ u, s.owner? name = some u ∧ u.native = false))) ∧
      (∀ name, name ∈ t.includes ↔ name ∈ includes ∧
        (policy.exportIncludes = true ∨ ¬(s.Referenced policy start visits name ∧
          ¬(policy.allowExternal ∧ name ∈ extdefs)))) ∧
      ∀ u, u ∈ t.activeUnits ↔ u ∈ visits := by
  have hs := State.fresh_of_build hbuild
  have hok : (s.traverse policy start).error = none := by rw [hrun]
  have htally := hs.tally_referenced hok
  have hactive := hs.isSome_cursor?_iff hok
  rw [hrun] at htally hactive
  have hext : s.extdefs = extdefs := by rw [State.eq_of_build hbuild]
  have hincl : s.includes = includes := by rw [State.eq_of_build hbuild]
  have hsink : s.unresolved = sink := by rw [State.eq_of_build hbuild]
  rw [← hext, ← hincl, ← hsink]
  refine ⟨htally.agrees.unresolved_eq_none_iff.2, ?_, ?_, ?_, ?_⟩
  · intro before hbefore
    have hsome : t.unresolved.isSome := by rw [htally.agrees.unresolved, hbefore]; rfl
    obtain ⟨after, hafter⟩ := Option.isSome_iff_exists.1 hsome
    refine ⟨after, hafter, fun name ↦ ?_⟩
    have h := htally.unresolved name
    simpa [hbefore, hafter, State.forall_not_resolves_iff] using h
  · intro name
    rw [htally.extdefs]
    cases he : policy.allowExternal with
    | true => simp
    | false => simp [State.resolves_iff_of_strict he]
  · intro name
    rw [htally.includes]
    cases policy.exportIncludes with
    | true => simp
    | false => simp
  · intro u
    have hnodup : t.units.Nodup := by
      rw [htally.agrees.units]
      exact (State.nodup_names_of_build hbuild).of_map _
    rw [State.mem_activeUnits hnodup, hactive]

namespace Tangle

def linked : State := (fresh.traverse policy (some ["main"])).state

theorem books_of_main :
    State.build units (.ofList ["ext"]) (.ofList ["loop", "knot"]) (some ∅) = .ok fresh ∧
      fresh.traverse policy (some ["main"]) = ⟨[base, main, loop], none, linked⟩ ∧
      (∃ after, linked.unresolved = some after ∧ "sys" ∈ after) ∧
      "ext" ∈ linked.extdefs ∧ "loop" ∉ linked.includes ∧
      ∀ u, u ∈ linked.activeUnits ↔ u ∈ [base, main, loop] := by
  have hrun : fresh.traverse policy (some ["main"]) = ⟨[base, main, loop], none, linked⟩ := by
    decide +kernel
  obtain ⟨-, hsink, hext, hincl, hactive⟩ := books_match_references build_eq_fresh hrun
  obtain ⟨after, hafter, hmem⟩ := hsink ∅ rfl
  refine ⟨build_eq_fresh, hrun, ⟨after, hafter, (hmem "sys").2 (.inr ⟨?_, ?_⟩)⟩, ?_, ?_, hactive⟩
  · exact .inr ⟨main, by decide, .inr ⟨rfl, by decide⟩⟩
  · exact .inr (.inr ⟨sys, by decide +kernel, rfl⟩)
  · exact (hext "ext").2 ⟨by decide +kernel, .inl rfl⟩
  · intro hloop
    refine ((hincl "loop").1 hloop).2.elim (by decide) fun hreached ↦ hreached ⟨?_, ?_⟩
    · exact .inr ⟨main, by decide, .inr ⟨rfl, by decide⟩⟩
    · decide +kernel

end Tangle

end LinkOrder
