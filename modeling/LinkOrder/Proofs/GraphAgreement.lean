import LinkOrder.Link.Graph
import LinkOrder.Proofs.Bookkeeping

namespace LinkOrder

open Relation

def Resolution.owner? : Resolution → Option LinkUnit
  | resolved u => some u
  | _ => none

/-- What came of a reference that a unit followed. -/
structure Answer where
  unit : LinkUnit
  kind : EdgeKind
  name : Symbol
  result : Resolution
  deriving DecidableEq

def Answer.edge? (a : Answer) : Option Edge :=
  a.result.owner?.map fun v ↦ ⟨a.unit.name, v.name, a.kind⟩

def answersOf (u : LinkUnit) (kind : EdgeKind) (log : List Answer) : List Answer :=
  log.filter fun a ↦ a.unit = u ∧ a.kind = kind

def Graph.edgesFrom (g : Graph) (name : String) (kind : EdgeKind) : List Edge :=
  g.edges.filter fun e ↦ e.source = name ∧ e.kind = kind

def LinkUnit.refs (u : LinkUnit) : EdgeKind → List Symbol
  | .pre => u.pres
  | .dep => u.deps

namespace Walk

theorem remaining_await_dropDep_lt {w : Walk} {policy : Policy} {u : LinkUnit} {d : Symbol}
    (h : w.state.dep? u = some d) :
    ((w.dropDep u).await policy d).state.remaining < w.state.remaining :=
  Nat.lt_of_le_of_lt (State.remaining_resolve_le _ policy d) (State.remaining_dropDep_lt h)

def depAnswers (w : Walk) (policy : Policy) (u : LinkUnit) : List Answer :=
  match h : w.state.dep? u with
  | none => []
  | some d =>
    have : ((w.dropDep u).await policy d).state.remaining < w.state.remaining := remaining_await_dropDep_lt h
    let result := ((w.dropDep u).state.resolve policy d).1
    ⟨u, .dep, d, result⟩ ::
      if result = .undefined then [] else ((w.dropDep u).await policy d).depAnswers policy u
termination_by w.state.remaining

def answers (w : Walk) (policy : Policy) : List Answer :=
  match w.state.chain with
  | [] => []
  | u :: chain =>
    match w.state.pre? u with
    | some p => [⟨u, .pre, p, ((w.state.update u Context.dropPre).resolve policy p).1⟩]
    | none => (w.visit u chain).depAnswers policy u

def log (w : Walk) (policy : Policy) : List Answer :=
  w.answers policy ++
    match h : w.step policy with
    | .next w' =>
      have := weight_step_lt h
      w'.log policy
    | _ => []
termination_by w.weight

end Walk

/-- The answers that a traversal got for the references of units, in the order in which it asked. -/
def State.log (s : State) (policy : Policy) (start : Option (List Symbol)) : List Answer :=
  match Walk.enqueueAll ⟨s, [], []⟩ policy (s.seeds policy start) with
  | (some _, _) => []
  | (none, w) => w.log policy

def Cursor.refs (k : Cursor) : EdgeKind → List Symbol
  | .pre => k.pres
  | .dep => k.deps

namespace State

variable {s t : State} {policy : Policy} {name p d : Symbol} {u v : LinkUnit} {k : Cursor} {kind : EdgeKind}

/-- The references of a unit that are left to follow, be it active or not. -/
def left (s : State) (policy : Policy) (u : LinkUnit) : Cursor :=
  (s.cursor? u).getD ⟨u.pres, policy.depsOf u⟩

theorem left_of_cursor? (h : s.cursor? u = some k) : s.left policy u = k := by
  rw [left, h, Option.getD_some]

theorem left_resolve (s : State) (policy : Policy) (name : Symbol) (u : LinkUnit) :
    (s.resolve policy name).2.left policy u = s.left policy u := by
  unfold left
  rcases s.cursor?_resolve policy name u with h | ⟨-, hnone, h⟩
  · rw [h]
  · rw [h, hnone, Option.getD_some, Option.getD_none]

/-- Of all that was left, the next reference of `u` of that kind is gone. -/
def Takes (policy : Policy) (s : State) (u : LinkUnit) (kind : EdgeKind) (name : Symbol) (t : State) : Prop :=
  ∀ v kind', (if u = v ∧ kind = kind' then [name] else []) ++ (t.left policy v).refs kind' =
    (s.left policy v).refs kind'

theorem takes_pre (h : s.pre? u = some p) : Takes policy s u .pre p (s.followPre policy u p) := by
  obtain ⟨ps, ds, hk⟩ := exists_cursor_of_pre? h
  intro v kind
  rw [followPre, left_resolve]
  by_cases hv : u = v
  · subst hv
    rw [left_of_cursor? (cursor?_dropPre hk), left_of_cursor? hk]
    cases kind <;> simp [Cursor.refs]
  · simp [hv, left, cursor?_dropPre_of_ne (Ne.symm hv)]

theorem takes_dep (h : s.dep? u = some d) :
    Takes policy s u .dep d ((s.update u Context.dropDep).resolve policy d).2 := by
  obtain ⟨ps, ds, hk⟩ := exists_cursor_of_dep? h
  intro v kind
  rw [left_resolve]
  by_cases hv : u = v
  · subst hv
    rw [left_of_cursor? (cursor?_dropDep hk), left_of_cursor? hk]
    cases kind <;> simp [Cursor.refs]
  · simp [hv, left, cursor?_dropDep_of_ne (Ne.symm hv)]

end State

namespace Walk

variable {policy : Policy} {seeds : List Symbol} {s : State} {w w' w'' : Walk} {log log' : List Answer}
  {u v : LinkUnit} {d p : Symbol} {kind : EdgeKind}

/-- From `w` to `w'` these answers were given: to the references that went off the cursors, each in its turn, and as
they were in `w` already. -/
structure Logged (policy : Policy) (w : Walk) (log : List Answer) (w' : Walk) : Prop where
  agrees : w.state.Agrees policy w'.state
  names : ∀ u kind, (answersOf u kind log).map (·.name) ++ (w'.state.left policy u).refs kind =
    (w.state.left policy u).refs kind
  results : ∀ a ∈ log, ∀ v, a.result = .resolved v ↔ w.state.Resolves policy a.name v

namespace Logged

theorem nothing (hagree : w.state.Agrees policy w'.state)
    (hleft : ∀ u, w'.state.left policy u = w.state.left policy u) : Logged policy w [] w' := by
  refine ⟨hagree, fun u kind ↦ ?_, by simp⟩
  rw [hleft]
  rfl

theorem trans (h : Logged policy w log w') (h' : Logged policy w' log' w'') :
    Logged policy w (log ++ log') w'' := by
  refine ⟨h.agrees.trans h'.agrees, fun u kind ↦ ?_, fun a ha v ↦ ?_⟩
  · rw [answersOf, List.filter_append, List.map_append, List.append_assoc]
    exact (congrArg _ (h'.names u kind)).trans (h.names u kind)
  · rcases List.mem_append.1 ha with ha | ha
    · exact h.results a ha v
    · exact (h'.results a ha v).trans h.agrees.resolves_iff

theorem one {a : Answer} (hagree : w.state.Agrees policy w'.state)
    (htakes : State.Takes policy w.state a.unit a.kind a.name w'.state)
    (hresult : ∀ v, a.result = .resolved v ↔ w.state.Resolves policy a.name v) :
    Logged policy w [a] w' := by
  refine ⟨hagree, fun u kind ↦ ?_, fun b hb ↦ List.mem_singleton.1 hb ▸ hresult⟩
  rw [← htakes u kind, answersOf, List.filter_singleton]
  by_cases h : a.unit = u ∧ a.kind = kind <;> simp [h]

theorem pre (hp : w.state.pre? u = some p) (chain : List LinkUnit) :
    Logged policy w [⟨u, .pre, p, ((w.state.update u Context.dropPre).resolve policy p).1⟩]
      { w with state := { w.state.followPre policy u p with chain } } := by
  have hagree := State.Agrees.followPre policy w.state u p
  refine one ⟨hagree.units, hagree.extdefs, hagree.unresolved⟩ (State.takes_pre hp) fun v ↦ ?_
  exact State.resolve_eq_resolved_iff.trans
    (State.Agrees.update Context.dropPre_unit policy w.state u).resolves_iff

theorem dep (hd : w.state.dep? u = some d) :
    Logged policy w [⟨u, .dep, d, ((w.dropDep u).state.resolve policy d).1⟩]
      ((w.dropDep u).await policy d) := by
  have hupdate := State.Agrees.update Context.dropDep_unit policy w.state u
  refine one (hupdate.trans (.resolve policy _ d)) (State.takes_dep hd) fun v ↦ ?_
  exact State.resolve_eq_resolved_iff.trans hupdate.resolves_iff

theorem deps (h : w.followDeps policy u = (none, w')) : Logged policy w (w.depAnswers policy u) w' := by
  fun_induction followDeps w policy u with
  | case1 w hnone =>
    have hd : w.state.dep? u = none := Option.map_eq_none_iff.1 hnone
    cases h
    rw [depAnswers]
    split
    · exact nothing (.refl policy _) fun _ ↦ rfl
    · next heq => cases hd.symm.trans heq
  | case2 => cases h
  | case3 w w₁ hfollow _ ih =>
    obtain ⟨d, hd, hdef, rfl⟩ := await_of_followDep? hfollow
    rw [depAnswers]
    split
    · next heq => cases hd.symm.trans heq
    · next d' heq =>
      cases hd.symm.trans heq
      simp only [if_neg hdef]
      exact (dep hd).trans (ih h)

end Logged

theorem logged_step (h : w.step policy = .next w') : Logged policy w (w.answers policy) w' := by
  unfold step at h
  unfold answers
  cases hc : w.state.chain with
  | nil =>
    rw [hc] at h
    cases hq : w.queue with
    | nil => simp [hq] at h
    | cons u queue =>
      simp only [hq] at h
      split at h <;> cases h
      · exact .nothing ⟨rfl, fun _ ↦ rfl, rfl⟩ fun _ ↦ rfl
      · exact .nothing ⟨rfl, fun _ ↦ rfl, rfl⟩ fun _ ↦ rfl
  | cons u chain =>
    rw [hc] at h
    cases hp : w.state.pre? u with
    | some p =>
      simp only [hp] at h ⊢
      rcases w.followPre_cases policy u p with ⟨-, heq⟩ | ⟨-, -, heq⟩ | ⟨v, -, -, heq⟩ | ⟨v, -, -, -, heq⟩ <;>
        rw [heq] at h <;> cases h
      · exact Logged.pre hp (w.state.followPre policy u p).chain
      · exact Logged.pre hp _
    | none =>
      simp only [hp] at h ⊢
      split at h
      · cases h
      · next w₁ heq =>
        cases h
        have hvisit : Logged policy w [] (w.visit u chain) :=
          .nothing ⟨rfl, fun _ ↦ rfl, rfl⟩ fun _ ↦ rfl
        exact hvisit.trans (.deps heq)

theorem log_of_next (h : w.step policy = .next w') : w.log policy = w.answers policy ++ w'.log policy := by
  rw [log]
  split
  · next heq =>
    rw [h] at heq
    cases heq
    rfl
  · next hne => exact absurd h (hne w')

theorem log_of_done (hchain : w.state.chain = []) (hqueue : w.queue = []) : w.log policy = [] := by
  have hstep : w.step policy = .done := by simp [step, hchain, hqueue]
  have hanswers : w.answers policy = [] := by simp [answers, hchain]
  rw [log, hanswers]
  split
  · next heq => cases hstep.symm.trans heq
  · rfl

theorem logged_steps (h : Steps policy w w') (hchain : w'.state.chain = []) (hqueue : w'.queue = []) :
    Logged policy w (w.log policy) w' := by
  induction h using ReflTransGen.head_induction_on with
  | refl =>
    rw [log_of_done hchain hqueue]
    exact .nothing (.refl policy _) fun _ ↦ rfl
  | head hstep _ ih =>
    rw [log_of_next hstep]
    exact (logged_step hstep).trans ih

theorem logged_enqueueAll {names : List Symbol} (h : w.enqueueAll policy names = (none, w')) :
    Logged policy w [] w' := by
  induction names generalizing w with
  | nil =>
    cases h
    exact .nothing (.refl policy _) fun _ ↦ rfl
  | cons name rest ih =>
    unfold enqueueAll at h
    split at h
    · cases h
    · next w₁ heq =>
      obtain ⟨-, rfl⟩ := await_of_enqueue heq
      have hawait : Logged policy w [] (w.await policy name) :=
        .nothing (.resolve policy _ name) (w.state.left_resolve policy name)
      exact hawait.trans (ih h)

def PresFollowed (w : Walk) : Prop := ∀ u ∈ w.state.order, ∃ ds, w.state.cursor? u = some ⟨[], ds⟩

theorem PresFollowed.move (hw : PresFollowed w) (ho : Orderly policy s w) (h : Move policy seeds w w') :
    PresFollowed w' := by
  intro u hu
  have hbefore : ∃ ds, w.state.cursor? u = some ⟨[], ds⟩ := by
    rcases h.visited hu with hold | ⟨hchain, hpre⟩
    · exact hw u hold
    · obtain ⟨⟨ps, ds⟩, hk⟩ := ho.exists_cursor (.inr (.inl hchain))
      obtain rfl : ps = [] := State.pres_eq_nil_of_pre? hpre hk
      exact ⟨ds, hk⟩
  obtain ⟨ds, hk⟩ := hbefore
  rcases h.cursor u with heq | ⟨hnone, -⟩ | ⟨p, ps, ds', hk', -⟩ | ⟨d, ps, ds', hk', heq, -⟩
  · exact ⟨ds, heq.trans hk⟩
  · cases hnone.symm.trans hk
  · cases hk'.symm.trans hk
  · cases hk'.symm.trans hk
    exact ⟨ds', heq⟩

end Walk

namespace State

open Walk

variable {s t : State} {policy : Policy} {start : Option (List Symbol)} {name : Symbol} {u v : LinkUnit}
  {kind : EdgeKind} {visits : List LinkUnit}

theorem Fresh.presFollowed {w : Walk} (hs : s.Fresh)
    (h : Moves policy (s.seeds policy start) ⟨s, [], []⟩ w) : PresFollowed w := by
  induction h with
  | refl =>
    intro u hu
    rw [hs.order] at hu
    cases hu
  | tail hmoves hmove ih => exact ih.move (hs.moves hmoves).1 hmove

theorem Fresh.left_eq (hs : s.Fresh) (policy : Policy) (u : LinkUnit) :
    s.left policy u = ⟨u.pres, policy.depsOf u⟩ := by
  rw [left, hs.inactive, Option.getD_none]

theorem Fresh.left_of_visited (hs : s.Fresh) (hrun : s.traverse policy start = ⟨visits, none, t⟩)
    (hu : u ∈ visits) : t.left policy u = ⟨[], []⟩ := by
  have hok : (s.traverse policy start).error = none := by rw [hrun]
  obtain ⟨w₁, w, hseed, hmoves, heq, -, hdrained⟩ := hs.exists_walk hok
  cases hrun.symm.trans heq
  have hall := (moves_of_enqueueAll hseed).trans hmoves
  have horder : u ∈ w.state.order := by
    rw [(hs.moves hall).1.order]
    exact List.mem_append_right _ hu
  obtain ⟨ds, hk⟩ := hs.presFollowed hall u horder
  obtain ⟨k, hk', hdeps⟩ := hdrained u hu
  cases hk.symm.trans hk'
  obtain rfl : ds = [] := hdeps
  exact left_of_cursor? hk

theorem logged_traverse (hrun : s.traverse policy start = ⟨visits, none, t⟩) :
    ∃ w, w.state = t ∧ Logged policy ⟨s, [], []⟩ (s.log policy start) w := by
  have hok : (s.traverse policy start).error = none := by rw [hrun]
  obtain ⟨w₁, w, hseed, hsteps, hchain, hqueue, heq⟩ := traverse_of_ok hok
  cases hrun.symm.trans heq
  refine ⟨w, rfl, ?_⟩
  have hlog : s.log policy start = w₁.log policy := by simp only [log, hseed]
  rw [hlog]
  exact (logged_enqueueAll hseed).trans (logged_steps hsteps hchain hqueue)

theorem Fresh.names_of_log (hs : s.Fresh) (hrun : s.traverse policy start = ⟨visits, none, t⟩)
    (hu : u ∈ visits) (kind : EdgeKind) :
    (answersOf u kind (s.log policy start)).map (·.name) = Cursor.refs ⟨u.pres, policy.depsOf u⟩ kind := by
  obtain ⟨w, rfl, hlogged⟩ := logged_traverse hrun
  have hnames := hlogged.names u kind
  rw [hs.left_of_visited hrun hu, hs.left_eq] at hnames
  have hnil : Cursor.refs ⟨[], []⟩ kind = [] := by cases kind <;> rfl
  rwa [hnil, List.append_nil] at hnames

theorem Tally.target?_eq_some_iff {M : Symbol → Prop} (h : s.Tally policy M t) (hname : M name) :
    t.target? name = some v ↔ s.Resolves policy name v := by
  have howner := owner?_congr h.agrees.units name
  constructor
  · intro htarget
    unfold target? at htarget
    split at htarget
    · cases htarget
    · next hext =>
      obtain ⟨hv, hnative⟩ := Option.filter_eq_some_iff.1 htarget
      refine ⟨fun hexternal ↦ hext ?_, howner ▸ hv, by simpa using hnative⟩
      rw [h.agrees.extdefs hexternal.1]
      exact hexternal.2
  · intro hres
    have hext : name ∉ t.extdefs := by
      intro hin
      obtain ⟨hin, hkept⟩ := (h.extdefs name).1 hin
      cases hallow : policy.allowExternal with
      | false => exact hkept ⟨hallow, hname, v, hres⟩
      | true => exact hres.not_external ⟨hallow, hin⟩
    unfold target?
    rw [if_neg hext, howner, hres.owner]
    simp [hres.not_native]

theorem filter_edgesOf (t : State) (u : LinkUnit) (refs : List Symbol) (kind kind' : EdgeKind) (source : String) :
    (t.edgesOf u kind refs).filter (fun e ↦ e.source = source ∧ e.kind = kind') =
      if u.name = source ∧ kind = kind' then t.edgesOf u kind refs else [] := by
  have hedge : ∀ e ∈ t.edgesOf u kind refs, e.source = u.name ∧ e.kind = kind := by
    intro e he
    obtain ⟨name, -, hname⟩ := List.mem_filterMap.1 he
    obtain ⟨v, -, rfl⟩ := Option.map_eq_some_iff.1 hname
    exact ⟨rfl, rfl⟩
  split
  · next h =>
    apply List.filter_eq_self.2
    intro e he
    simpa [hedge e he] using h
  · next h =>
    apply List.filter_eq_nil_iff.2
    intro e he
    simpa [hedge e he] using h

theorem edgesFrom_graph (hnodup : (t.units.map (·.name)).Nodup) (hu : u ∈ t.units) (hnative : u.native = false)
    (kind : EdgeKind) : t.graph.edgesFrom u.name kind = t.edgesOf u kind (u.refs kind) := by
  -- Names tell the edges of a unit from those of the others.
  have hone (v : LinkUnit) :
      (t.edgesOf v .pre v.pres ++ t.edgesOf v .dep v.deps).filter
          (fun e ↦ e.source = u.name ∧ e.kind = kind) =
        if v.name = u.name then t.edgesOf v kind (v.refs kind) else [] := by
    rw [List.filter_append, filter_edgesOf, filter_edgesOf]
    by_cases hname : v.name = u.name <;> cases kind <;> simp [hname, LinkUnit.refs]
  have hlinkable : u ∈ t.units.filter (!·.native) := List.mem_filter.2 ⟨hu, by simp [hnative]⟩
  obtain ⟨before, after, hsplit⟩ := List.append_of_mem hlinkable
  have hnodup' : ((before ++ u :: after).map (·.name)).Nodup :=
    hsplit ▸ hnodup.sublist (List.filter_sublist.map _)
  have hother : ∀ v ∈ before ++ after, v.name ≠ u.name := by
    rw [List.map_append, List.map_cons, List.nodup_middle, List.nodup_cons, ← List.map_append] at hnodup'
    intro v hv hname
    exact hnodup'.1 (hname ▸ List.mem_map_of_mem hv)
  have hnil (l : List LinkUnit) (hl : ∀ v ∈ l, v ∈ before ++ after) :
      (l.flatMap fun v ↦ if v.name = u.name then t.edgesOf v kind (v.refs kind) else []) = [] :=
    List.flatMap_eq_nil_iff.2 fun v hv ↦ if_neg (hother v (hl v hv))
  unfold Graph.edgesFrom graph
  dsimp only
  rw [hsplit, List.filter_flatMap]
  simp only [hone]
  rw [List.flatMap_append, List.flatMap_cons, hnil before fun v hv ↦ List.mem_append_left _ hv,
    hnil after fun v hv ↦ List.mem_append_right _ hv, if_pos rfl, List.nil_append, List.append_nil]

theorem Reached.exists_resolves (h : s.Reached policy start u) : ∃ name, s.Resolves policy name u := by
  cases h with
  | seed _ hres => exact ⟨_, hres⟩
  | pre _ _ hres => exact ⟨_, hres⟩
  | dep _ _ _ hres => exact ⟨_, hres⟩

theorem Fresh.edgesFrom_eq (hs : s.Fresh) (hnodup : (s.units.map (·.name)).Nodup)
    (hrun : s.traverse policy start = ⟨visits, none, t⟩) (hu : u ∈ visits) (kind : EdgeKind) :
    t.graph.edgesFrom u.name kind = t.edgesOf u kind (u.refs kind) := by
  have hok : (s.traverse policy start).error = none := by rw [hrun]
  have hunits : t.units = s.units := by
    have hagree := (hs.tally_referenced hok).agrees
    rw [hrun] at hagree
    exact hagree.units
  have hreached : s.Reached policy start u := by
    rw [← hs.mem_visits_iff hok, hrun]
    exact hu
  obtain ⟨name, hres⟩ := hreached.exists_resolves
  exact edgesFrom_graph (hunits ▸ hnodup) (hunits ▸ mem_units_of_owner? hres.owner) hres.not_native kind

theorem refs_of_followed (h : kind = .pre ∨ policy.inheritanceOnly = false) (u : LinkUnit) :
    Cursor.refs ⟨u.pres, policy.depsOf u⟩ kind = u.refs kind := by
  cases kind with
  | pre => rfl
  | dep => simp [Cursor.refs, LinkUnit.refs, Policy.depsOf, h.resolve_left (by decide)]

theorem referenced_of_followed (h : kind = .pre ∨ policy.inheritanceOnly = false) (hu : u ∈ visits)
    (hname : name ∈ u.refs kind) : s.Referenced policy start visits name := by
  refine .inr ⟨u, hu, ?_⟩
  cases kind with
  | pre => exact .inl hname
  | dep => exact .inr ⟨h.resolve_left (by decide), hname⟩

theorem Tally.of_mem_edgesOf {M : Symbol → Prop} {refs : List Symbol} {e : Edge} (h : s.Tally policy M t)
    (hrefs : ∀ name ∈ refs, M name) (he : e ∈ t.edgesOf u kind refs) :
    ∃ name ∈ refs, ∃ v, s.Resolves policy name v ∧ e.target = v.name := by
  obtain ⟨name, hname, hedge⟩ := List.mem_filterMap.1 he
  obtain ⟨v, hv, rfl⟩ := Option.map_eq_some_iff.1 hedge
  exact ⟨name, hname, v, (h.target?_eq_some_iff (hrefs name hname)).1 hv, rfl⟩

theorem Tally.filterMap_edge? {M : Symbol → Prop} {log : List Answer} (h : s.Tally policy M t)
    (hresults : ∀ a ∈ log, ∀ v, a.result = .resolved v ↔ s.Resolves policy a.name v)
    (hnames : ∀ name ∈ (answersOf u kind log).map (·.name), M name) :
    (answersOf u kind log).filterMap Answer.edge? =
      t.edgesOf u kind ((answersOf u kind log).map (·.name)) := by
  unfold edgesOf
  rw [List.filterMap_map]
  apply List.filterMap_congr
  intro a ha
  obtain ⟨hlog, hof⟩ := List.mem_filter.1 ha
  obtain ⟨rfl, rfl⟩ := of_decide_eq_true hof
  have hname := hnames a.name (List.mem_map_of_mem ha)
  have howner : a.result.owner? = t.target? a.name := by
    ext v
    rw [h.target?_eq_some_iff hname, ← hresults a hlog v]
    cases a.result <;> simp [Resolution.owner?]
  rw [Answer.edge?, howner]
  rfl

end State

/-- The edges that leave a visited unit are, in order and one each, those references that the traversal resolved.
Prerequisites lead to units visited earlier, and dependencies, if these are followed, to units visited at all. -/
theorem graph_agrees_with_walk {units visits before after : List LinkUnit} {extdefs includes : SymbolSet}
    {sink : Option SymbolSet} {s t : State} {policy : Policy} {start : Option (List Symbol)} {u : LinkUnit}
    (hbuild : State.build units extdefs includes sink = .ok s)
    (hrun : s.traverse policy start = ⟨visits, none, t⟩) (hsplit : visits = before ++ u :: after) :
    (∀ kind, kind = .pre ∨ policy.inheritanceOnly = false →
      (answersOf u kind (s.log policy start)).map (·.name) = u.refs kind ∧
      t.graph.edgesFrom u.name kind = (answersOf u kind (s.log policy start)).filterMap Answer.edge?) ∧
    (∀ e ∈ t.graph.edgesFrom u.name .pre, ∃ v ∈ before, e.target = v.name) ∧
    (policy.inheritanceOnly = false → ∀ e ∈ t.graph.edgesFrom u.name .dep, ∃ v ∈ visits, e.target = v.name) := by
  have hs := State.fresh_of_build hbuild
  have hok : (s.traverse policy start).error = none := by rw [hrun]
  have hu : u ∈ visits := hsplit ▸ List.mem_append_right _ List.mem_cons_self
  have htally := hs.tally_referenced hok
  have hclosed := hs.closed_visits hok
  rw [hrun] at htally hclosed
  have hedges := hs.edgesFrom_eq (State.nodup_names_of_build hbuild) hrun hu
  obtain ⟨w, -, hlogged⟩ := State.logged_traverse hrun
  refine ⟨fun kind hkind ↦ ?_, fun e he ↦ ?_, fun hdeps e he ↦ ?_⟩
  · have hnames := hs.names_of_log hrun hu kind
    rw [State.refs_of_followed hkind] at hnames
    refine ⟨hnames, ?_⟩
    rw [htally.filterMap_edge? hlogged.results, hnames, hedges]
    rw [hnames]
    exact fun name hname ↦ State.referenced_of_followed hkind hu hname
  · rw [hedges] at he
    obtain ⟨p, hp, v, hres, htarget⟩ :=
      htally.of_mem_edgesOf (fun name hname ↦ State.referenced_of_followed (.inl rfl) hu hname) he
    obtain ⟨w', hmoves, -, -, heq⟩ := State.moves_of_ok hok
    cases hrun.symm.trans heq
    have hbefore := ((hs.moves hmoves).1.ordered before u after hsplit p hp).target v hres
    rw [hs.order, List.nil_append] at hbefore
    exact ⟨v, hbefore, htarget⟩
  · rw [hedges] at he
    obtain ⟨d, hd, v, hres, htarget⟩ :=
      htally.of_mem_edgesOf (fun name hname ↦ State.referenced_of_followed (.inr hdeps) hu hname) he
    exact ⟨v, (hclosed.dep u hu d (Policy.mem_depsOf.2 ⟨hdeps, hd⟩)).target v hres, htarget⟩

namespace Tangle

def demoted : State := (fresh.traverse {} (some ["main"])).state

theorem main_leads_to_demoted :
    State.build units (.ofList ["ext"]) (.ofList ["loop", "knot"]) (some ∅) = .ok fresh ∧
      fresh.traverse {} (some ["main"]) = ⟨[base, main, loop, ext], none, demoted⟩ ∧
      (answersOf main .dep (fresh.log {} (some ["main"]))).map (·.name) = ["loop", "sys", "ext", "missing"] ∧
      (answersOf main .dep (fresh.log {} (some ["main"]))).filterMap Answer.edge? =
        [⟨"main", "loop", .dep⟩, ⟨"main", "ext", .dep⟩] ∧
      ∀ e ∈ demoted.graph.edgesFrom "main" .pre, ∃ v ∈ [base], e.target = v.name := by
  have hrun : fresh.traverse {} (some ["main"]) = ⟨[base, main, loop, ext], none, demoted⟩ := by
    decide +kernel
  have hedges : demoted.graph.edgesFrom "main" .dep = [⟨"main", "loop", .dep⟩, ⟨"main", "ext", .dep⟩] := by
    decide +kernel
  have hsplit : [base, main, loop, ext] = [base] ++ main :: [loop, ext] := rfl
  obtain ⟨hkinds, hpres, -⟩ := graph_agrees_with_walk build_eq_fresh hrun hsplit
  obtain ⟨hnames, hanswers⟩ := hkinds .dep (.inr rfl)
  exact ⟨build_eq_fresh, hrun, hnames, hanswers.symm.trans hedges, hpres⟩

end Tangle

end LinkOrder
