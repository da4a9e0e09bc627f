import LinkOrder.Proofs.Reachability

namespace LinkOrder

open Relation

namespace SymbolSet

variable {s : SymbolSet} {a : Symbol}

theorem insert_eq_self (h : a ∈ s) : s.insert a = s := by
  apply ext
  intro b
  rw [mem_insert]
  exact ⟨fun hb ↦ hb.elim (fun heq ↦ heq ▸ h) id, .inr⟩

theorem erase_eq_self (h : a ∉ s) : s.erase a = s := by
  apply ext
  intro b
  rw [mem_erase]
  exact ⟨And.left, fun hb ↦ ⟨hb, fun heq ↦ h (heq ▸ hb)⟩⟩

end SymbolSet

namespace State

variable {s t : State} {policy : Policy} {start : Option (List Symbol)} {name : Symbol} {u : LinkUnit}
  {M : Symbol → Prop} {S : LinkUnit → Prop}

theorem record_eq_self (h : s.unresolved.isSome → name ∈ s.unresolved.getD ∅) : s.record name = s := by
  have hsame : s.unresolved.map (·.insert name) = s.unresolved := by
    cases hs : s.unresolved with
    | none => rfl
    | some set =>
      rw [hs] at h
      exact congrArg some (SymbolSet.insert_eq_self (h rfl))
  rw [record, hsame]

theorem reach_eq_self (h : policy.exportIncludes = false → name ∉ s.includes) : s.reach policy name = s := by
  have hsame : (if policy.exportIncludes then s.includes else s.includes.erase name) = s.includes := by
    split
    · rfl
    · next hp => exact SymbolSet.erase_eq_self (h (by simpa using hp))
  rw [reach, hsame]

theorem update_activate_eq_self (hnodup : s.units.Nodup) (hu : (s.cursor? u).isSome) :
    s.update u (Context.activate policy) = s := by
  have hsame : (s.contexts.map fun c ↦ if c.unit = u then c.activate policy else c) = s.contexts := by
    refine (List.map_congr_left fun c hc ↦ ?_).trans (List.map_id _)
    split
    · next hunit =>
      obtain ⟨b, hb, hbu⟩ := exists_context_of_mem (hunit ▸ List.mem_map_of_mem hc : u ∈ s.units)
      have hbc : b = c :=
        List.inj_on_of_nodup_map hnodup (List.mem_of_find?_eq_some hb) hc (hbu.trans hunit.symm)
      rw [cursor?, hb, hbc, Option.bind_some] at hu
      obtain ⟨k, hk⟩ := Option.isSome_iff_exists.1 hu
      rw [Context.activate, hk]
      rfl
    · rfl
  rw [update, hsame]

theorem link_eq_self (hnodup : s.units.Nodup) (hu : (s.cursor? u).isSome)
    (h : policy.allowExternal = false → name ∉ s.extdefs) : s.link policy name u = s := by
  have hsame : (if policy.allowExternal then s.extdefs else s.extdefs.erase name) = s.extdefs := by
    split
    · rfl
    · next hp => exact SymbolSet.erase_eq_self (h (by simpa using hp))
  rw [link, hsame]
  exact update_activate_eq_self hnodup hu

theorem Tally.resolve_eq_self (h : s.Tally policy M t) (hnodup : t.units.Nodup) (hM : M name) :
    (t.resolve policy name).2 = t := by
  have hrecord (hr : ∀ u, ¬t.Resolves policy name u) : t.record name = t := by
    apply record_eq_self
    intro hsome
    refine (h.unresolved name).2 (.inr ⟨h.agrees.unresolved ▸ hsome, hM, fun u hu ↦ ?_⟩)
    exact hr u (h.agrees.resolves_iff.2 hu)
  have hreach (hext : ¬(policy.allowExternal ∧ name ∈ t.extdefs)) : t.reach policy name = t := by
    apply reach_eq_self
    intro hp hmem
    exact ((h.includes name).1 hmem).2 ⟨hp, hM, mt (h.agrees.external_iff name).2 hext⟩
  rcases t.resolve_cases policy name with ⟨hext, heq⟩ | ⟨hext, hr, heq⟩ | ⟨u, hu, heq⟩ <;> rw [heq]
  · exact hrecord fun u hu ↦ hu.not_external hext
  · rw [hreach hext, hrecord hr]
  · have hu' := h.agrees.resolves_iff.1 hu
    rw [hreach hu.not_external]
    apply link_eq_self hnodup
    · exact (h.active u).2 (.inr ⟨name, hM, hu'⟩)
    · intro hp hmem
      exact ((h.extdefs name).1 hmem).2 ⟨hp, hM, u, hu'⟩

theorem Agrees.settled_iff (h : Agrees policy s t) : t.Settled policy S name ↔ s.Settled policy S name := by
  constructor
  · intro ht
    refine ⟨fun v hv ↦ ht.target v (h.resolves_iff.2 hv), fun hnone hname ↦ ?_⟩
    exact ht.defined (h.unresolved_eq_none_iff.2 hnone) (h.undefined_iff.2 hname)
  · intro hs
    refine ⟨fun v hv ↦ hs.target v (h.resolves_iff.1 hv), fun hnone hname ↦ ?_⟩
    exact hs.defined (h.unresolved_eq_none_iff.1 hnone) (h.undefined_iff.1 hname)

end State

namespace Walk

open State (Tally Agrees)

variable {policy : Policy} {seeds names : List Symbol} {w w' : Walk}

theorem Move.settles (h : Move policy seeds w w') :
    ∃ N, w.state.Tally policy N w'.state ∧ ∀ name, N name → w.state.Settled policy w'.Covered name := by
  cases h with
  | @seed name hname hdef =>
    refine ⟨_, .resolve policy w.state name, ?_⟩
    rintro _ rfl
    exact (Agrees.refl policy w.state).settled hdef fun v hv ↦ covered_await.2 (.inr hv)
  | @dep u d hu hd hdef =>
    have hagree := Agrees.update Context.dropDep_unit policy w.state u
    refine ⟨_, .followDep policy w.state u d, ?_⟩
    rintro _ rfl
    exact hagree.settled hdef fun v hv ↦ covered_await.2 (.inr (hagree.resolves_iff.2 hv))
  | @pass u p rest hc hp hdef hv =>
    refine ⟨_, .followPre policy w.state u p, ?_⟩
    rintro _ rfl
    apply (Agrees.update Context.dropPre_unit policy w.state u).settled hdef
    intro v hr
    exact .inl (w.state.order_followPre policy u _ ▸ hv v hr)
  | @descend u v p rest hc hp hv =>
    have hagree := Agrees.update Context.dropPre_unit policy w.state u
    refine ⟨_, (Tally.followPre policy w.state u p).with_trail _ _, ?_⟩
    rintro _ rfl
    apply hagree.settled
    · rw [State.resolve_of_resolves (hagree.resolves_iff.2 hv)]
      exact Resolution.noConfusion
    · intro x hx
      rw [hx.unique hv]
      exact .inr (.inl List.mem_cons_self)
  | visit => exact ⟨_, (Tally.refl policy w.state).with_trail _ _, fun _ h ↦ h.elim⟩
  | skip => exact ⟨_, .refl policy w.state, fun _ h ↦ h.elim⟩
  | begin => exact ⟨_, (Tally.refl policy w.state).with_trail _ _, fun _ h ↦ h.elim⟩

theorem Moves.settles (h : Moves policy seeds w w') :
    ∃ M, w.state.Tally policy M w'.state ∧ ∀ name, M name → w.state.Settled policy w'.Covered name := by
  induction h with
  | refl => exact ⟨_, .refl policy w.state, fun _ h ↦ h.elim⟩
  | tail _ hmove ih =>
    obtain ⟨M, hM, hsettled⟩ := ih
    obtain ⟨N, hN, hsettled'⟩ := hmove.settles
    refine ⟨_, hM.trans hN, ?_⟩
    rintro name (hname | hname)
    · exact (hsettled name hname).mono fun v hv ↦ hmove.covered hv
    · exact hM.agrees.settled_iff.1 (hsettled' name hname)

theorem tally_enqueueAll (h : w.enqueueAll policy names = (none, w')) :
    w.state.Tally policy (· ∈ names) w'.state := by
  induction names generalizing w with
  | nil =>
    cases h
    simpa using Tally.refl policy w'.state
  | cons name rest ih =>
    unfold enqueueAll at h
    split at h
    · cases h
    · next w₁ heq =>
      obtain ⟨-, rfl⟩ := await_of_enqueue heq
      simpa using (Tally.resolve policy w.state name).trans (ih h)

end Walk

namespace State

open Walk

variable {s t : State} {policy : Policy} {start : Option (List Symbol)} {name : Symbol} {names : List Symbol}
  {M : Symbol → Prop}

/-- What a traversal that succeeds has resolved: all its seeds, and nothing that leads to a unit not visited. -/
theorem exists_tally_of_ok (h : (s.traverse policy start).error = none) :
    ∃ M, s.Tally policy M (s.traverse policy start).state ∧ (∀ name ∈ s.seeds policy start, M name) ∧
      ∀ name, M name → s.Settled policy (· ∈ (s.traverse policy start).state.order) name := by
  obtain ⟨w₁, w, hseed, hsteps, hchain, hqueue, heq⟩ := traverse_of_ok h
  have hmoves : Moves policy [] w₁ w := moves_of_steps [] hsteps
  have htally := tally_enqueueAll hseed
  obtain ⟨M, hM, hsettled⟩ := hmoves.settles
  have hcovered : ∀ v, w.Covered v → v ∈ w.state.order := by
    intro v hv
    simpa [Covered, hchain, hqueue] using hv
  rw [heq]
  refine ⟨_, htally.trans hM, fun name ↦ .inl, ?_⟩
  rintro name (hname | hname)
  · have hset := settled_enqueueAll (.refl policy s) hseed name hname
    exact hset.mono fun v hv ↦ hcovered v (hmoves.covered hv)
  · exact (htally.agrees.settled_iff.1 (hsettled name hname)).mono hcovered

theorem Tally.of_mem_seeds (h : s.Tally policy M t) (hM : ∀ name ∈ s.seeds policy start, M name)
    (hname : name ∈ t.seeds policy start) : M name := by
  -- A seed that was none before ceased to be external since.
  cases mem_seeds.1 hname with
  | given hgiven => exact hM name (mem_seeds.2 (.given hgiven))
  | own hi hu hd hext =>
    by_cases hs : name ∈ s.extdefs
    · rw [h.extdefs, not_and, not_not] at hext
      exact (hext hs).2.1
    · exact hM name (mem_seeds.2 (.own hi (h.agrees.units ▸ hu) hd hs))
  | included hp hincl => exact hM name (mem_seeds.2 (.included hp ((h.includes name).1 hincl).1))

theorem enqueueAll_eq_self (h : ∀ name ∈ names, (t.resolve policy name).2 = t ∧ t.Settled policy (· ∈ t.order) name) :
    Walk.enqueueAll ⟨t, [], []⟩ policy names = (none, ⟨t, [], []⟩) := by
  induction names with
  | nil => rfl
  | cons name rest ih =>
    obtain ⟨hstate, hsettled⟩ := h name List.mem_cons_self
    have hdef : (t.resolve policy name).1 ≠ .undefined := by
      rw [Ne, resolve_eq_undefined_iff]
      exact fun hu ↦ hsettled.defined hu.2 hu.1
    have hwaiting : t.waiting policy name = [] := by
      rw [List.eq_nil_iff_forall_not_mem]
      intro v hv
      obtain ⟨hr, hnew⟩ := mem_waiting.1 hv
      exact hnew (hsettled.target v hr)
    have hawait : Walk.await ⟨t, [], []⟩ policy name = ⟨t, [], []⟩ := by
      rw [Walk.await, hstate, hwaiting, List.append_nil]
    rw [Walk.enqueueAll, enqueue_eq, if_neg hdef, hawait]
    exact ih fun n hn ↦ h n (List.mem_cons_of_mem _ hn)

end State

/-- On any state in use, a traversal that succeeded succeeds again, visits nothing the second time, and leaves the
state exactly as it was. -/
theorem second_traversal_changes_nothing {units seen : List LinkUnit} {extdefs includes : SymbolSet}
    {sink : Option SymbolSet} {s₀ s : State} {policy : Policy} {start : Option (List Symbol)}
    (hbuild : State.build units extdefs includes sink = .ok s₀) (hs : Session (fun _ ↦ True) s₀ seen s)
    (hok : (s.traverse policy start).error = none) :
    (s.traverse policy start).state.traverse policy start =
      ⟨[], none, (s.traverse policy start).state⟩ := by
  obtain ⟨hsound, -, -⟩ := hs.sound (State.sound_of_build hbuild)
  obtain ⟨M, htally, hseeds, hsettled⟩ := State.exists_tally_of_ok hok
  have hend := (hsound.traverse policy start).1
  generalize (s.traverse policy start).state = t at htally hsettled hend ⊢
  have hidle : Walk.enqueueAll ⟨t, [], []⟩ policy (t.seeds policy start) = (none, ⟨t, [], []⟩) := by
    apply State.enqueueAll_eq_self
    intro name hname
    have hM := htally.of_mem_seeds hseeds hname
    exact ⟨htally.resolve_eq_self hend.nodup_units hM, htally.agrees.settled_iff.2 (hsettled name hM)⟩
  have hdone : Walk.step ⟨t, [], []⟩ policy = .done := by
    rw [Walk.step, hend.idle]
  rw [State.traverse, hidle]
  exact Walk.run_of_done hdone

namespace Dock

def main : LinkUnit := { name := "main", defs := ["main"], pres := ["quay"], deps := ["ext", "gone"] }

def quay : LinkUnit := { name := "quay", defs := ["quay"], pres := ["main"] }

def ext : LinkUnit := { name := "ext", defs := ["ext"] }

def fresh : State :=
  { contexts := [main, quay, ext].map ({ unit := · })
    extdefs := .ofList ["ext"]
    includes := .ofList ["ext", "late"]
    unresolved := some ∅ }

def stuck : State := (fresh.traverse {} (some ["main"])).state

def linked : State := (stuck.traverse {} none).state

theorem linked_stays_linked :
    State.build [main, quay, ext] (.ofList ["ext"]) (.ofList ["ext", "late"]) (some ∅) = .ok fresh ∧
      Session (fun _ ↦ True) fresh [] stuck ∧
      (stuck.traverse {} none).error = none ∧
      stuck.seeds {} none = ["main", "quay"] ∧ linked.seeds {} none = ["main", "quay", "ext"] ∧
      linked.traverse {} none = ⟨[], none, linked⟩ := by
  have hbuild : State.build [main, quay, ext] (.ofList ["ext"]) (.ofList ["ext", "late"]) (some ∅) =
      .ok fresh := rfl
  have hvisits : (fresh.traverse {} (some ["main"])).visits = [] := by decide +kernel
  have hs : Session (fun _ ↦ True) fresh ([] ++ _) stuck := .traverse {} (some ["main"]) .start trivial
  rw [hvisits] at hs
  have hok : (stuck.traverse {} none).error = none := by decide +kernel
  exact ⟨hbuild, hs, hok, by decide +kernel, by decide +kernel, second_traversal_changes_nothing hbuild hs hok⟩

end Dock

end LinkOrder
