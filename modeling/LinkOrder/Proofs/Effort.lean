import LinkOrder.Proofs.Retry
import LinkOrder.Proofs.Turns

namespace LinkOrder

variable {s : State} {policy : Policy} {u : LinkUnit} {k : Cursor} {kind : EdgeKind} {name : Symbol}
  {log did : List Act}

def Cursor.drop (k : Cursor) : EdgeKind → Cursor
  | .pre => { k with pres := k.pres.tail }
  | .dep => { k with deps := k.deps.tail }

theorem Cursor.refs_drop (k : Cursor) (kind kind' : EdgeKind) :
    (k.drop kind).refs kind' = if kind' = kind then (k.refs kind').tail else k.refs kind' := by
  cases kind <;> cases kind' <;> rfl

theorem Cursor.refs_drop_suffix (k : Cursor) (kind kind' : EdgeKind) : (k.drop kind).refs kind' <:+ k.refs kind' := by
  rw [refs_drop]
  split
  · exact List.tail_suffix _
  · exact List.suffix_rfl

def Context.drop : EdgeKind → Context → Context
  | .pre => dropPre
  | .dep => dropDep

theorem State.cursor?_drop (s : State) (u v : LinkUnit) (kind : EdgeKind) :
    (s.update u (Context.drop kind)).cursor? v = if v = u then (s.cursor? v).map (·.drop kind) else s.cursor? v := by
  cases kind with
  | pre => exact cursor?_update Context.dropPre_unit Context.dropPre_cursor s v u
  | dep => exact cursor?_update Context.dropDep_unit Context.dropDep_cursor s v u

/-- What is left on a cursor is the end of its unit's list. -/
def State.Trimmed (s : State) : Prop := ∀ u k, s.cursor? u = some k → ∀ kind, k.refs kind <:+ u.refs kind

namespace State.Trimmed

theorem resolve (hs : s.Trimmed) (policy : Policy) (name : Symbol) : (s.resolve policy name).2.Trimmed := by
  intro u k hk kind
  rcases s.cursor?_resolve policy name u with heq | ⟨-, -, heq⟩
  · exact hs u k (heq.symm.trans hk) kind
  · cases heq.symm.trans hk
    cases kind with
    | pre => exact List.suffix_rfl
    | dep =>
      change policy.depsOf u <:+ u.deps
      unfold Policy.depsOf
      split
      · exact List.nil_suffix
      · exact List.suffix_rfl

theorem drop (hs : s.Trimmed) (u : LinkUnit) (kind : EdgeKind) : (s.update u (Context.drop kind)).Trimmed := by
  intro v k hk kind'
  rw [cursor?_drop] at hk
  split at hk
  · obtain ⟨k', hk', rfl⟩ := Option.map_eq_some_iff.1 hk
    exact (k'.refs_drop_suffix kind kind').trans (hs v k' hk' kind')
  · exact hs v k hk kind'

theorem exists_before {rest : List Symbol} (hs : s.Trimmed) (hk : s.cursor? u = some k)
    (hrefs : k.refs kind = name :: rest) :
    ∃ before, u.refs kind = before ++ name :: rest ∧ s.nextRef u kind = ⟨u, kind, before.length⟩ := by
  obtain ⟨before, hbefore⟩ := hs u k hk kind
  rw [hrefs] at hbefore
  refine ⟨before, hbefore.symm, ?_⟩
  simp [nextRef, hk, hrefs, ← hbefore]

end State.Trimmed

namespace Reference

variable {r : Reference}

/-- The cursor of the unit has passed the reference. -/
def Behind (s : State) (r : Reference) : Prop :=
  ∃ k, s.cursor? r.unit = some k ∧ r.index + (k.refs r.kind).length < (r.unit.refs r.kind).length

theorem Behind.resolve (h : r.Behind s) (policy : Policy) (name : Symbol) : r.Behind (s.resolve policy name).2 := by
  obtain ⟨k, hk, hlt⟩ := h
  exact ⟨k, State.cursor?_resolve_of_some hk, hlt⟩

theorem Behind.drop (h : r.Behind s) (u : LinkUnit) (kind : EdgeKind) :
    r.Behind (s.update u (Context.drop kind)) := by
  obtain ⟨k, hk, hlt⟩ := h
  by_cases hunit : r.unit = u
  · refine ⟨k.drop kind, by rw [State.cursor?_drop, if_pos hunit, hk, Option.map_some], ?_⟩
    exact Nat.lt_of_le_of_lt (Nat.add_le_add_left (k.refs_drop_suffix kind r.kind).length_le _) hlt
  · exact ⟨k, by rw [State.cursor?_drop, if_neg hunit, hk], hlt⟩

end Reference

/-- The references in the log were each resolved once, and are behind the cursors. -/
structure Booked (log : List Act) (s : State) : Prop where
  trimmed : s.Trimmed
  nodup : (log.filterMap Act.reference?).Nodup
  behind : ∀ r ∈ log.filterMap Act.reference?, r.Behind s
  named : ∀ r name, Act.resolve (some r) name ∈ log → r.symbol? = some name

namespace Booked

theorem of_fresh (hs : s.Fresh) : Booked [] s := by
  refine ⟨fun u k hk ↦ ?_, .nil, by simp, by simp⟩
  cases (hs.inactive u).symm.trans hk

theorem resolve (h : Booked log s) (policy : Policy) (name : Symbol) : Booked log (s.resolve policy name).2 :=
  ⟨h.trimmed.resolve policy name, h.nodup, fun r hr ↦ (h.behind r hr).resolve policy name, h.named⟩

theorem with_trail (h : Booked log s) (chain order : List LinkUnit) : Booked log { s with chain, order } :=
  ⟨h.trimmed, h.nodup, h.behind, h.named⟩

theorem pass (h : Booked log s) (act : Act) (hact : act.reference? = none) : Booked (log ++ [act]) s := by
  have hrefs : (log ++ [act]).filterMap Act.reference? = log.filterMap Act.reference? := by
    simp [List.filterMap_append, hact]
  refine ⟨h.trimmed, hrefs ▸ h.nodup, hrefs ▸ h.behind, fun r name hr ↦ ?_⟩
  rcases List.mem_append.1 hr with hr | hr
  · exact h.named r name hr
  · rw [← List.mem_singleton.1 hr] at hact
    cases hact

theorem drop {rest : List Symbol} (h : Booked log s) (kind : EdgeKind) (hk : s.cursor? u = some k)
    (hrefs : k.refs kind = name :: rest) :
    Booked (log ++ [.resolve (some (s.nextRef u kind)) name]) (s.update u (Context.drop kind)) := by
  -- The reference was not in the log, for it was not behind the cursor.
  obtain ⟨before, hall, hnext⟩ := h.trimmed.exists_before hk hrefs
  have hcursor : (s.update u (Context.drop kind)).cursor? u = some (k.drop kind) := by
    rw [State.cursor?_drop, if_pos rfl, hk, Option.map_some]
  have hbehind : Reference.Behind (s.update u (Context.drop kind)) ⟨u, kind, before.length⟩ := by
    refine ⟨k.drop kind, hcursor, ?_⟩
    simp [Cursor.refs_drop, hrefs, hall]
  have hnew : ⟨u, kind, before.length⟩ ∉ log.filterMap Act.reference? := by
    intro hmem
    obtain ⟨k', hk', hlt⟩ := h.behind _ hmem
    cases hk.symm.trans hk'
    simp [hrefs, hall] at hlt
  rw [hnext]
  refine ⟨h.trimmed.drop u kind, ?_, fun r hr ↦ ?_, fun r name' hr ↦ ?_⟩
  · rw [List.filterMap_append]
    exact h.nodup.append (List.nodup_singleton _) (by simpa [Act.reference?] using hnew)
  · rw [List.filterMap_append] at hr
    rcases List.mem_append.1 hr with hr | hr
    · exact (h.behind r hr).drop u kind
    · obtain rfl : r = ⟨u, kind, before.length⟩ := by simpa [Act.reference?] using hr
      exact hbehind
  · rcases List.mem_append.1 hr with hr | hr
    · exact h.named r name' hr
    · simp only [List.mem_singleton, Act.resolve.injEq, Option.some_inj] at hr
      obtain ⟨rfl, rfl⟩ := hr
      simp [Reference.symbol?, hall]

theorem does {w w' : Walk} (h : Booked log w.state) (hdoes : w.Does policy did w') :
    Booked (log ++ did) w'.state := by
  cases hdoes with
  | nothing =>
    rw [List.append_nil]
    exact h
  | visit =>
    rw [List.append_nil]
    exact h.with_trail _ _
  | begin => exact (h.with_trail _ _).pass _ rfl
  | seed name => exact (h.resolve policy name).pass _ rfl
  | @dep u d hd =>
    obtain ⟨pres, rest, hk⟩ := State.exists_cursor_of_dep? hd
    exact (h.drop .dep hk rfl).resolve policy d
  | @pre u p hp =>
    obtain ⟨rest, deps, hk⟩ := State.exists_cursor_of_pre? hp
    exact (h.drop .pre hk rfl).resolve policy p
  | @descend u v p hp =>
    obtain ⟨rest, deps, hk⟩ := State.exists_cursor_of_pre? hp
    have hbooked := ((h.drop .pre hk rfl).resolve policy p).pass (.push v) rfl
    rw [List.append_assoc] at hbooked
    exact hbooked.with_trail _ _

end Booked

/-- The units taken into progress by a walk are those that still are, and those it visited. -/
structure Walk.Stacked (pushed : List LinkUnit) (w : Walk) : Prop where
  perm : pushed.Perm (w.state.chain ++ w.visits)
  nodup : (w.state.chain ++ w.visits).Nodup
  visited : ∀ u ∈ w.visits, u ∈ w.state.order

namespace Walk.Stacked

variable {pushed : List LinkUnit} {w w' : Walk}

theorem nodup_pushed (h : w.Stacked pushed) : pushed.Nodup := h.perm.nodup_iff.2 h.nodup

theorem push (h : w.Stacked pushed) (hchain : u ∉ w.state.chain) (horder : u ∉ w.state.order)
    (hc : w'.state.chain = u :: w.state.chain) (ho : w'.state.order = w.state.order) (hv : w'.visits = w.visits) :
    w'.Stacked (pushed ++ [u]) := by
  refine ⟨?_, ?_, ?_⟩
  · rw [hc, hv]
    exact (List.perm_append_singleton u pushed).trans (h.perm.cons u)
  · rw [hc, hv, List.cons_append, List.nodup_cons, List.mem_append]
    exact ⟨fun hu ↦ hu.elim hchain fun hu ↦ horder (h.visited u hu), h.nodup⟩
  · rw [ho, hv]
    exact h.visited

theorem keep (h : w.Stacked pushed) (hc : w'.state.chain = w.state.chain) (ho : w'.state.order = w.state.order)
    (hv : w'.visits = w.visits) : w'.Stacked (pushed ++ []) := by
  rw [List.append_nil]
  refine ⟨?_, ?_, ?_⟩
  · rw [hc, hv]
    exact h.perm
  · rw [hc, hv]
    exact h.nodup
  · rw [ho, hv]
    exact h.visited

theorem visit {rest : List LinkUnit} (h : w.Stacked pushed) (hc : w.state.chain = u :: rest) :
    (w.visit u rest).Stacked (pushed ++ []) := by
  rw [List.append_nil]
  have hperm : (w.state.chain ++ w.visits).Perm (rest ++ (w.visits ++ [u])) := by
    rw [hc, ← List.append_assoc]
    exact (List.perm_append_singleton u _).symm
  refine ⟨h.perm.trans hperm, hperm.nodup_iff.1 h.nodup, fun v hv ↦ ?_⟩
  rcases List.mem_append.1 hv with hv | hv
  · exact List.mem_append_left _ (h.visited v hv)
  · exact List.mem_append_right _ hv

theorem does (h : w.Stacked pushed) (hdoes : w.Does policy did w') :
    w'.Stacked (pushed ++ did.filterMap Act.pushed?) := by
  cases hdoes with
  | nothing => exact h.keep rfl rfl rfl
  | visit hc => exact h.visit hc
  | begin queue hc hu => exact h.push (hc ▸ List.not_mem_nil) hu (hc ▸ rfl) rfl rfl
  | seed name => exact h.keep (State.chain_resolve _ policy name) (State.order_resolve _ policy name) rfl
  | @dep u d => exact h.keep (State.chain_resolve _ policy d) (State.order_resolve _ policy d) rfl
  | @pre u p => exact h.keep (State.chain_followPre _ policy u p) (State.order_followPre _ policy u p) rfl
  | @descend u v p hp hchain horder => exact h.push hchain horder rfl (State.order_followPre _ policy u p) rfl

end Walk.Stacked

theorem Walk.Does.remaining_le {w w' : Walk} (h : w.Does policy did w') :
    w'.state.remaining + (did.filterMap Act.reference?).length ≤ w.state.remaining := by
  cases h with
  | nothing => exact Nat.le_refl _
  | visit => exact Nat.le_refl _
  | begin => exact Nat.le_refl _
  | seed name => exact State.remaining_resolve_le _ policy name
  | dep hd => exact remaining_followDep_lt hd
  | pre hp => exact remaining_followPre_lt hp
  | descend hp => exact remaining_followPre_lt hp

theorem length_filterMap_name? (did : List Act) :
    (did.filterMap Act.name?).length = (did.filterMap Act.seed?).length + (did.filterMap Act.reference?).length := by
  induction did with
  | nil => rfl
  | cons act did ih =>
    cases act with
    | push u => exact ih
    | resolve reference name =>
      cases reference with
      | none =>
        simp only [List.filterMap_cons, Act.name?, Act.seed?, Act.reference?, List.length_cons]
        omega
      | some r =>
        simp only [List.filterMap_cons, Act.name?, Act.seed?, Act.reference?, List.length_cons]
        omega

namespace Progress.Runs

variable {t : Progress} {o : Outcome} {n : Nat}

theorem booked (h : Runs policy n t did o) (hlog : Booked log t.walk.state) : Booked (log ++ did) o.state := by
  induction h generalizing log with
  | stop h =>
    obtain ⟨w, chain, hdoes, hstate, -⟩ := told_of_eq h
    rw [hstate]
    exact (hlog.does hdoes).with_trail _ _
  | next h _ ih =>
    rw [← List.append_assoc]
    exact ih (hlog.does (told_of_eq h).1)

theorem nodup_pushed {pushed : List LinkUnit} (h : Runs policy n t did o) (ht : t.walk.Stacked pushed) :
    (pushed ++ did.filterMap Act.pushed?).Nodup := by
  induction h generalizing pushed with
  | stop h =>
    obtain ⟨w, chain, hdoes, -⟩ := told_of_eq h
    exact (ht.does hdoes).nodup_pushed
  | next h _ ih =>
    rw [List.filterMap_append, ← List.append_assoc]
    exact ih (ht.does (told_of_eq h).1)

theorem remaining_le (h : Runs policy n t did o) :
    o.state.remaining + (did.filterMap Act.reference?).length ≤ t.walk.state.remaining := by
  induction h with
  | stop h =>
    obtain ⟨w, chain, hdoes, hstate, -⟩ := told_of_eq h
    rw [hstate]
    exact hdoes.remaining_le
  | next h _ ih =>
    have hle := (told_of_eq h).1.remaining_le
    rw [List.filterMap_append, List.length_append]
    omega

theorem seeds_resolved (h : Runs policy n t did o) : did.filterMap Act.seed? <+: t.seeds := by
  induction h with
  | stop h =>
    obtain ⟨w, chain, -, -, hseeds⟩ := told_of_eq h
    exact hseeds
  | next h _ ih =>
    rw [(told_of_eq h).2.1, List.filterMap_append]
    exact (List.prefix_append_right_inj _).2 ih

end Progress.Runs

/-- The states to which calls lead from `s₀`, with all that the traversals among them did. Any call may fail. -/
inductive History (s₀ : State) : List Act → State → Prop
  | start : History s₀ [] s₀
  | resolve {log : List Act} {s : State} (policy : Policy) (name : Symbol) :
      History s₀ log s → History s₀ log (s.resolve policy name).2
  | traverse {log : List Act} {s : State} (policy : Policy) (start : Option (List Symbol)) :
      History s₀ log s → History s₀ (log ++ s.acts policy start) (s.traverse policy start).state

namespace History

variable {s₀ : State}

theorem session (h : History s₀ log s) : ∃ seen, Session (fun _ ↦ True) s₀ seen s := by
  induction h with
  | start => exact ⟨[], .start⟩
  | resolve policy name _ ih =>
    obtain ⟨seen, hs⟩ := ih
    exact ⟨seen, hs.resolve policy name⟩
  | traverse policy start _ ih =>
    obtain ⟨seen, hs⟩ := ih
    exact ⟨_, hs.traverse policy start trivial⟩

theorem booked (h : History s₀ log s) (h₀ : s₀.Fresh) : Booked log s := by
  induction h with
  | start => exact .of_fresh h₀
  | resolve policy name _ ih => exact ih.resolve policy name
  | @traverse log s policy start _ ih =>
    obtain ⟨n, -, hruns⟩ := s.exists_runs policy start
    exact hruns.booked ih

theorem remaining_le (h : History s₀ log s) : s.remaining ≤ s₀.remaining := by
  induction h with
  | start => exact Nat.le_refl _
  | @resolve log s policy name _ ih => exact Nat.le_trans (s.remaining_resolve_le policy name) ih
  | @traverse log s policy start _ ih =>
    obtain ⟨n, -, hruns⟩ := s.exists_runs policy start
    have hle := hruns.remaining_le
    change _ ≤ s.remaining at hle
    omega

end History

def refCount (units : List LinkUnit) : Nat := units.foldr (fun u n ↦ u.pres.length + u.deps.length + n) 0

theorem State.remaining_of_build {units : List LinkUnit} {extdefs includes : SymbolSet} {sink : Option SymbolSet}
    (h : build units extdefs includes sink = .ok s) : s.remaining = refCount units := by
  rw [eq_of_build h, remaining, List.foldr_map]
  rfl

/-- Whatever was called before, a traversal comes to its end in a number of turns, and what it does in them is bounded:
no unit is taken into progress twice, no reference is resolved that this or an earlier traversal has resolved, and beyond
that only seeds are, each once. -/
theorem references_resolved_once {units : List LinkUnit} {extdefs includes : SymbolSet} {sink : Option SymbolSet}
    {s₀ s : State} {log : List Act} (hbuild : State.build units extdefs includes sink = .ok s₀)
    (hs : History s₀ log s) (policy : Policy) (start : Option (List Symbol)) :
    (∃ n ≤ 6 * ((s.seeds policy start).length + refCount units) + 1,
        Progress.Runs policy n (s.begin policy start) (s.acts policy start) (s.traverse policy start)) ∧
      ((s.acts policy start).filterMap Act.pushed?).Nodup ∧
      ((log ++ s.acts policy start).filterMap Act.reference?).Nodup ∧
      (∀ r name, .resolve (some r) name ∈ log ++ s.acts policy start → r.symbol? = some name) ∧
      (s.acts policy start).filterMap Act.seed? <+: s.seeds policy start ∧
      ((s.acts policy start).filterMap Act.name?).length ≤ (s.seeds policy start).length + refCount units := by
  obtain ⟨seen, hsession⟩ := hs.session
  have hidle := (hsession.sound (State.sound_of_build hbuild)).1.idle
  obtain ⟨n, hn, hruns⟩ := s.exists_runs policy start
  have hbooked := hruns.booked (hs.booked (State.fresh_of_build hbuild))
  have hstacked : (s.begin policy start).walk.Stacked [] := by
    refine ⟨?_, ?_, by simp [State.begin]⟩ <;> simp [State.begin, hidle]
  have hremaining := State.remaining_of_build hbuild ▸ hs.remaining_le
  refine ⟨⟨n, ?_, hruns⟩, hruns.nodup_pushed hstacked, hbooked.nodup, hbooked.named, hruns.seeds_resolved, ?_⟩
  · rw [hidle, List.length_nil] at hn
    omega
  · have hseeds := hruns.seeds_resolved.length_le
    have hrefs := hruns.remaining_le
    change _ + _ ≤ s.remaining at hrefs
    change _ ≤ (s.seeds policy start).length at hseeds
    rw [length_filterMap_name?]
    omega

namespace Spoke

def hub : LinkUnit := { name := "hub", defs := ["hub"], pres := ["rim", "hub"], deps := ["rim", "gone"] }

def rim : LinkUnit := { name := "rim", defs := ["rim"], deps := ["hub"] }

def fresh : State := { contexts := [hub, rim].map ({ unit := · }) }

def stuck : State := (fresh.traverse {} (some ["hub", "hub"])).state

theorem hub_taken_up_where_left :
    State.build [hub, rim] ∅ ∅ none = .ok fresh ∧ History fresh (fresh.acts {} (some ["hub", "hub"])) stuck ∧
      (fresh.acts {} (some ["hub", "hub"])).filterMap Act.reference? =
        [⟨hub, .pre, 0⟩, ⟨rim, .dep, 0⟩, ⟨hub, .pre, 1⟩] ∧
      (stuck.traverse {} (some ["hub"])).error = some (.undefinedSymbol "gone") ∧
      stuck.acts {} (some ["hub"]) =
        [.resolve none "hub", .push hub, .resolve (some ⟨hub, .dep, 0⟩) "rim", .resolve (some ⟨hub, .dep, 1⟩) "gone"] ∧
      ((fresh.acts {} (some ["hub", "hub"]) ++ stuck.acts {} (some ["hub"])).filterMap Act.reference?).Nodup ∧
      ∃ n ≤ 37, Progress.Runs {} n (stuck.begin {} (some ["hub"])) (stuck.acts {} (some ["hub"]))
        (stuck.traverse {} (some ["hub"])) := by
  have hbuild : State.build [hub, rim] ∅ ∅ none = .ok fresh := rfl
  have hs : History fresh ([] ++ fresh.acts {} (some ["hub", "hub"])) stuck := .traverse {} _ .start
  obtain ⟨hruns, -, hnodup, -⟩ := references_resolved_once hbuild hs {} (some ["hub"])
  exact ⟨hbuild, hs, by decide +kernel, by decide +kernel, by decide +kernel, hnodup, hruns⟩

end Spoke

end LinkOrder
