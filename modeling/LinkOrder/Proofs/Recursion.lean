import LinkOrder.Proofs.Reachability

namespace LinkOrder

open Relation

namespace Recursive

/-- Resolves a symbol, which leads to a unit or not. From an undefined one nothing goes on. -/
def resolve (policy : Policy) (r : Walk) (name : Symbol) : Option (Option LinkUnit × Walk) :=
  match r.state.resolve policy name with
  | (.resolved u, s) => some (some u, { r with state := s })
  | (.deferred, s) => some (none, { r with state := s })
  | (.undefined, _) => none

def enqueue (policy : Policy) (r : Walk) (name : Symbol) : Option Walk := do
  let (u, r) ← resolve policy r name
  return { r with queue := r.queue ++ u.toList }

/-- Resolves a symbol and makes a call for the unit it leads to, unless that was visited. -/
def follow (policy : Policy) (call : Walk → LinkUnit → Option Walk) (r : Walk) (p : Symbol) :
    Option Walk := do
  let (v, r) ← resolve policy r p
  match v with
  | some v => if v ∈ r.visits then return r else call r v
  | none => return r

def post (policy : Policy) : Nat → Walk → LinkUnit → Option Walk
  | 0, _, _ => none
  | depth + 1, r, u => do
    let r ← u.pres.foldlM (follow policy (post policy depth)) r
    (policy.depsOf u).foldlM (enqueue policy) { r with visits := r.visits ++ [u] }

def drain (policy : Policy) : Nat → Walk → Option Walk
  | 0, _ => none
  | bound + 1, r =>
    match r.queue with
    | [] => return r
    | u :: queue =>
      if u ∈ r.visits then drain policy bound { r with queue }
      else do
        let r ← post policy (bound + 1) { r with queue } u
        drain policy bound r

/-- Visits the units in the queue one after another, at first those that the seeds lead to. The bound is one on
the turns of the queue and on the depth of calls. -/
def traverse (bound : Nat) (s : State) (policy : Policy) (start : Option (List Symbol)) :
    Option Walk := do
  let r ← (s.seeds policy start).foldlM (enqueue policy) ⟨s, [], []⟩
  drain policy bound r

variable {policy : Policy} {r r' out : Walk} {u v : LinkUnit} {name p : Symbol} {ps : List Symbol}
  {queue ws : List LinkUnit} {call : Walk → LinkUnit → Option Walk} {m n : Nat}
  {rest : List (LinkUnit × List Symbol)}

theorem resolve_of_resolves (h : r.state.Resolves policy name u) :
    resolve policy r name = some (some u, { r with state := (r.state.resolve policy name).2 }) := by
  unfold resolve
  rw [State.resolve_of_resolves h]

theorem resolve_of_not_resolves (h : ∀ u, ¬r.state.Resolves policy name u)
    (hdef : (r.state.resolve policy name).1 ≠ .undefined) :
    resolve policy r name = some (none, { r with state := (r.state.resolve policy name).2 }) := by
  unfold resolve
  split
  · next u s heq => exact absurd (State.resolve_eq_resolved_iff.1 (congrArg Prod.fst heq)) (h u)
  · next s heq => rw [heq]
  · next s heq => exact absurd (congrArg Prod.fst heq) hdef

theorem follow_of_none (h : resolve policy r p = some (none, r')) :
    follow policy call r p = some r' := by
  rw [follow, h]
  rfl

theorem follow_of_visited (h : resolve policy r p = some (some v, r')) (hv : v ∈ r'.visits) :
    follow policy call r p = some r' := by
  rw [follow, h]
  exact if_pos hv

theorem follow_of_unvisited (h : resolve policy r p = some (some v, r')) (hv : v ∉ r'.visits) :
    follow policy call r p = call r' v := by
  rw [follow, h]
  exact if_neg hv

def Extends {α : Type} (f g : Walk → α → Option Walk) : Prop :=
  ∀ r x r', f r x = some r' → g r x = some r'

theorem Extends.foldlM {α : Type} {f g : Walk → α → Option Walk} (h : Extends f g) :
    Extends (fun r (l : List α) ↦ l.foldlM f r) fun r l ↦ l.foldlM g r := by
  intro r l r' hl
  induction l generalizing r with
  | nil => exact hl
  | cons x l ih =>
    dsimp only at hl ⊢
    rw [List.foldlM_cons] at hl ⊢
    obtain ⟨r₁, hx, hl⟩ := Option.bind_eq_some_iff.1 hl
    exact Option.bind_eq_some_iff.2 ⟨r₁, h r x r₁ hx, ih r₁ hl⟩

theorem Extends.follow {f g : Walk → LinkUnit → Option Walk} (h : Extends f g) :
    Extends (follow policy f) (follow policy g) := by
  intro r p r' hp
  unfold Recursive.follow at hp ⊢
  obtain ⟨⟨v, r₁⟩, hres, hcall⟩ := Option.bind_eq_some_iff.1 hp
  refine Option.bind_eq_some_iff.2 ⟨(v, r₁), hres, ?_⟩
  cases v with
  | none => exact hcall
  | some v =>
    by_cases hv : v ∈ r₁.visits
    · simpa only [hv, if_true] using hcall
    · simp only [hv, if_false] at hcall ⊢
      exact h r₁ v r' hcall

theorem post_extends (policy : Policy) (n : Nat) : Extends (post policy n) (post policy (n + 1)) := by
  induction n with
  | zero =>
    intro r u r' h
    cases h
  | succ n ih =>
    intro r u r' h
    rw [post] at h ⊢
    obtain ⟨r₁, hpres, hdeps⟩ := Option.bind_eq_some_iff.1 h
    exact Option.bind_eq_some_iff.2 ⟨r₁, ih.follow.foldlM r u.pres r₁ hpres, hdeps⟩

theorem drain_succ (h : drain policy n r = some r') : drain policy (n + 1) r = some r' := by
  induction n generalizing r with
  | zero => cases h
  | succ n ih =>
    rw [drain] at h ⊢
    cases hq : r.queue with
    | nil => simpa only [hq] using h
    | cons u queue =>
      by_cases hu : u ∈ r.visits
      · simp only [hq, hu, if_true] at h ⊢
        exact ih h
      · simp only [hq, hu, if_false] at h ⊢
        obtain ⟨r₁, hpost, hrest⟩ := Option.bind_eq_some_iff.1 h
        exact Option.bind_eq_some_iff.2 ⟨r₁, post_extends policy (n + 1) _ u r₁ hpost, ih hrest⟩

theorem drain_mono (hnm : n ≤ m) (h : drain policy n r = some r') : drain policy m r = some r' := by
  induction hnm with
  | refl => exact h
  | step _ ih => exact drain_succ ih

theorem drain_of_visited (hq : r.queue = u :: queue) (hu : u ∈ r.visits) :
    drain policy (n + 1) r = drain policy n { r with queue } := by
  rw [drain, hq]
  exact if_pos hu

theorem drain_of_unvisited (hq : r.queue = u :: queue) (hu : u ∉ r.visits) :
    drain policy (n + 1) r = (post policy (n + 1) { r with queue } u).bind (drain policy n) := by
  rw [drain, hq]
  exact if_neg hu

theorem drain_skip {skipped : List LinkUnit} (h : ∀ v ∈ skipped, v ∈ r.visits) (policy : Policy)
    (n : Nat) (queue : List LinkUnit) :
    drain policy (n + skipped.length) { r with queue := skipped ++ queue } =
      drain policy n { r with queue } := by
  induction skipped with
  | nil => rfl
  | cons v skipped ih =>
    have hv := h v List.mem_cons_self
    have hrest := ih fun x hx ↦ h x (List.mem_cons_of_mem v hx)
    exact (drain_of_visited (r := { r with queue := v :: (skipped ++ queue) }) rfl hv).trans hrest

/-- What is left of the recursion inside the calls for some units, the innermost first, each with the
prerequisites it has not come to yet. -/
def resume (policy : Policy) (n : Nat) : List (LinkUnit × List Symbol) → Walk → Option Walk
  | [], r => drain policy n r
  | (u, pres) :: rest, r => do
    let r ← pres.foldlM (follow policy (post policy n)) r
    let r ← (policy.depsOf u).foldlM (enqueue policy) { r with visits := r.visits ++ [u] }
    resume policy n rest r

theorem resume_succ (h : resume policy n rest r = some out) :
    resume policy (n + 1) rest r = some out := by
  induction rest generalizing r with
  | nil => exact drain_succ h
  | cons frame rest ih =>
    obtain ⟨r₁, hpres, h⟩ := Option.bind_eq_some_iff.1 h
    obtain ⟨r₂, hdeps, h⟩ := Option.bind_eq_some_iff.1 h
    refine Option.bind_eq_some_iff.2 ⟨r₁, ?_, Option.bind_eq_some_iff.2 ⟨r₂, hdeps, ih h⟩⟩
    exact (post_extends policy n).follow.foldlM r frame.2 r₁ hpres

theorem resume_of_follow (h : follow policy (post policy n) r p = some r') :
    resume policy n ((u, p :: ps) :: rest) r = resume policy n ((u, ps) :: rest) r' := by
  rw [resume, List.foldlM_cons, h, resume]
  rfl

theorem resume_begin :
    resume policy n ((u, u.pres) :: rest) r = (post policy (n + 1) r u).bind (resume policy n rest) := by
  rw [resume, post, Option.bind_eq_bind, Option.bind_assoc]

theorem resume_of_unvisited (h : resolve policy r p = some (some v, r')) (hv : v ∉ r'.visits)
    (hout : resume policy n ((v, v.pres) :: (u, ps) :: rest) r' = some out) :
    resume policy (n + 1) ((u, p :: ps) :: rest) r = some out := by
  rw [resume_begin] at hout
  obtain ⟨r₁, hpost, hrest⟩ := Option.bind_eq_some_iff.1 hout
  rw [resume_of_follow ((follow_of_unvisited h hv).trans hpost)]
  exact resume_succ hrest

theorem drain_of_filter_eq_nil (policy : Policy) (h : r.queue.filter (· ∉ r.visits) = []) :
    ∃ n, drain policy n r = some { r with queue := [] } := by
  have hall : ∀ v ∈ r.queue, v ∈ r.visits := by simpa using h
  have hskip := drain_skip hall policy 1 []
  rw [List.append_nil] at hskip
  exact ⟨1 + r.queue.length, hskip⟩

theorem drain_of_filter_eq_cons (policy : Policy) (h : r.queue.filter (· ∉ r.visits) = u :: ws) :
    ∃ queue, queue.filter (· ∉ r.visits) = ws ∧
      ∀ n, ∃ m, drain policy m r = resume policy n [(u, u.pres)] { r with queue } := by
  obtain ⟨skipped, queue, hq, hskipped, hu, rfl⟩ := List.filter_eq_cons_iff.1 h
  have hall : ∀ v ∈ skipped, v ∈ r.visits := by simpa using hskipped
  refine ⟨queue, rfl, fun n ↦ ⟨n + 1 + skipped.length, ?_⟩⟩
  have hskip := drain_skip hall policy (n + 1) (u :: queue)
  rw [← hq] at hskip
  rw [hskip, drain_of_unvisited rfl (by simpa using hu), resume_begin]
  rfl

/-- What comes of the calls `rest'` at `r'` also comes of the calls `rest` at `r`, within some bound. -/
def Leads (policy : Policy) (rest : List (LinkUnit × List Symbol)) (r : Walk)
    (rest' : List (LinkUnit × List Symbol)) (r' : Walk) : Prop :=
  ∀ n out, resume policy n rest' r' = some out → ∃ m, resume policy m rest r = some out

end Recursive

namespace State

variable {s t : State} {policy : Policy} {name : Symbol} {u v : LinkUnit}

structure Alike (s t : State) : Prop where
  units : t.units = s.units
  extdefs : t.extdefs = s.extdefs
  includes : t.includes = s.includes
  unresolved : t.unresolved = s.unresolved

namespace Alike

theorem record (h : s.Alike t) (name : Symbol) : (s.record name).Alike (t.record name) :=
  ⟨h.units, h.extdefs, h.includes, congrArg (Option.map _) h.unresolved⟩

theorem reach (h : s.Alike t) (policy : Policy) (name : Symbol) :
    (s.reach policy name).Alike (t.reach policy name) := by
  refine ⟨h.units, h.extdefs, ?_, h.unresolved⟩
  unfold State.reach
  rw [h.includes]

theorem link (h : s.Alike t) (policy : Policy) (name : Symbol) (u : LinkUnit) :
    (s.link policy name u).Alike (t.link policy name u) := by
  refine ⟨?_, ?_, h.includes, h.unresolved⟩
  · unfold State.link
    rw [units_update (Context.activate_unit policy), units_update (Context.activate_unit policy)]
    exact h.units
  · unfold State.link update
    rw [h.extdefs]

theorem resolve (h : s.Alike t) (policy : Policy) (name : Symbol) :
    (t.resolve policy name).1 = (s.resolve policy name).1 ∧
      (s.resolve policy name).2.Alike (t.resolve policy name).2 := by
  unfold State.resolve
  rw [h.extdefs, h.unresolved, owner?_congr h.units]
  split
  · exact ⟨rfl, h.record name⟩
  · split
    · exact ⟨rfl, (h.reach policy name).record name⟩
    · next u _ =>
      split
      · exact ⟨rfl, (h.reach policy name).record name⟩
      · exact ⟨rfl, (h.reach policy name).link policy name u⟩

theorem resolves_iff (h : s.Alike t) : t.Resolves policy name u ↔ s.Resolves policy name u := by
  rw [← resolve_eq_resolved_iff, ← resolve_eq_resolved_iff, (h.resolve policy name).1]

theorem update {f : Context → Context} (hf : ∀ c, (f c).unit = c.unit) (h : s.Alike t)
    (u : LinkUnit) : (s.update u f).Alike t :=
  ⟨h.units.trans (units_update hf s u).symm, h.extdefs, h.includes, h.unresolved⟩

end Alike

def pending (s : State) (u : LinkUnit) : List Symbol := (s.cursor? u).elim [] (·.pres)

theorem pending_eq {k : Cursor} (h : s.cursor? u = some k) : s.pending u = k.pres := by
  rw [pending, h, Option.elim_some]

def frames (s : State) : List (LinkUnit × List Symbol) := s.chain.map fun u ↦ (u, s.pending u)

end State

namespace Walk

/-- The recursion at `r` has come as far as the walk at `w`. It also puts visited units in its queue, of
which nothing comes. -/
structure Mirrors (w r : Walk) : Prop where
  alike : w.state.Alike r.state
  visits : r.visits = w.state.order
  queue : r.queue.filter (· ∉ w.state.order) = w.queue.filter (· ∉ w.state.order)

/-- The dependencies of a unit are all to be followed as long as it is not visited. -/
def Intact (policy : Policy) (w : Walk) : Prop :=
  ∀ u k, u ∉ w.state.order → w.state.cursor? u = some k → k.deps = policy.depsOf u

variable {policy : Policy} {seeds : List Symbol} {s : State} {w w' r : Walk} {u v : LinkUnit}
  {name p : Symbol} {rest : List LinkUnit} {k : Cursor}

theorem Intact.move (hw : Intact policy w) (h : Move policy seeds w w') : Intact policy w' := by
  intro u k hu hk
  have hu' : u ∉ w.state.order := fun hin ↦ hu (h.order_subset hin)
  rcases h.cursor u with heq | ⟨-, heq⟩ | ⟨p, ps, ds, hold, heq⟩ | ⟨d, ps, ds, -, -, hin, -⟩
  · exact hw u k hu' (heq.symm.trans hk)
  · cases heq.symm.trans hk
    rfl
  · cases heq.symm.trans hk
    exact hw u ⟨p :: ps, ds⟩ hu' hold
  · exact absurd hin hu'

theorem Intact.moves (hw : Intact policy w) (h : Moves policy seeds w w') : Intact policy w' := by
  induction h with
  | refl => exact hw
  | tail _ hmove ih => exact ih.move hmove

namespace Mirrors

theorem await (hm : w.Mirrors r) (hdef : (w.state.resolve policy name).1 ≠ .undefined) :
    ∃ r', (w.await policy name).Mirrors r' ∧ Recursive.enqueue policy r name = some r' := by
  obtain ⟨hres, halike⟩ := hm.alike.resolve policy name
  have horder := order_await w policy name
  by_cases h : ∃ v, w.state.Resolves policy name v
  · obtain ⟨v, hv⟩ := h
    refine ⟨⟨(r.state.resolve policy name).2, r.queue ++ [v], r.visits⟩,
      ⟨halike, hm.visits.trans horder.symm, ?_⟩, ?_⟩
    · rw [horder]
      change _ = (w.queue ++ w.state.waiting policy name).filter _
      rw [State.waiting_of_resolves hv, List.filter_append, List.filter_append, List.filter_filter,
        hm.queue]
      simp only [Bool.and_self]
    · rw [Recursive.enqueue, Recursive.resolve_of_resolves (hm.alike.resolves_iff.2 hv)]
      rfl
  · have hnone : ∀ v, ¬r.state.Resolves policy name v := fun v hv ↦
      h ⟨v, hm.alike.resolves_iff.1 hv⟩
    refine ⟨⟨(r.state.resolve policy name).2, r.queue ++ [], r.visits⟩,
      ⟨halike, hm.visits.trans horder.symm, ?_⟩, ?_⟩
    · rw [horder]
      change _ = (w.queue ++ w.state.waiting policy name).filter _
      rw [State.waiting_of_not_resolves (not_exists.1 h), List.append_nil, List.append_nil, hm.queue]
    · rw [Recursive.enqueue, Recursive.resolve_of_not_resolves hnone (hres ▸ hdef)]
      rfl

theorem enqueueAll {names : List Symbol} (hm : w.Mirrors r)
    (h : w.enqueueAll policy names = (none, w')) :
    ∃ r', w'.Mirrors r' ∧ names.foldlM (Recursive.enqueue policy) r = some r' := by
  induction names generalizing w r with
  | nil =>
    cases h
    exact ⟨r, hm, rfl⟩
  | cons name names ih =>
    unfold Walk.enqueueAll at h
    split at h
    · cases h
    · next w₁ heq =>
      obtain ⟨hdef, rfl⟩ := await_of_enqueue heq
      obtain ⟨r₁, hm₁, hname⟩ := hm.await hdef
      obtain ⟨r', hm', hnames⟩ := ih hm₁ h
      rw [List.foldlM_cons]
      exact ⟨r', hm', Option.bind_eq_some_iff.2 ⟨r₁, hname, hnames⟩⟩

theorem dropDep (hm : w.Mirrors r) (u : LinkUnit) : (w.dropDep u).Mirrors r :=
  ⟨hm.alike.update Context.dropDep_unit u, hm.visits, hm.queue⟩

theorem followDeps (hm : w.Mirrors r) (hk : w.state.cursor? u = some k)
    (h : w.followDeps policy u = (none, w')) :
    ∃ r', w'.Mirrors r' ∧ k.deps.foldlM (Recursive.enqueue policy) r = some r' := by
  fun_induction Walk.followDeps w policy u generalizing r k with
  | case1 w hnone =>
    cases h
    rw [State.deps_eq_nil_of_dep? (Option.map_eq_none_iff.1 hnone) hk]
    exact ⟨r, hm, rfl⟩
  | case2 => cases h
  | case3 w w₁ hfollow _ ih =>
    obtain ⟨d, hd, hdef, rfl⟩ := await_of_followDep? hfollow
    obtain ⟨ps, ds, hk'⟩ := State.exists_cursor_of_dep? hd
    cases hk'.symm.trans hk
    obtain ⟨r₁, hm₁, hdep⟩ := (hm.dropDep u).await hdef
    have hk₁ : ((w.dropDep u).await policy d).state.cursor? u = some ⟨ps, ds⟩ :=
      State.cursor?_resolve_of_some (State.cursor?_dropDep hk)
    obtain ⟨r', hm', hdeps⟩ := ih hm₁ hk₁ h
    rw [List.foldlM_cons]
    exact ⟨r', hm', Option.bind_eq_some_iff.2 ⟨r₁, hdep, hdeps⟩⟩

theorem visit (hm : w.Mirrors r) (u : LinkUnit) (rest : List LinkUnit) :
    (w.visit u rest).Mirrors { r with visits := r.visits ++ [u] } := by
  have hfilter : ∀ l : List LinkUnit, l.filter (· ∉ w.state.order ++ [u]) =
      (l.filter (· ∉ w.state.order)).filter (· ≠ u) := by
    intro l
    rw [List.filter_filter]
    refine List.filter_congr fun v _ ↦ ?_
    simp [and_comm]
  refine ⟨⟨hm.alike.1, hm.alike.2, hm.alike.3, hm.alike.4⟩, ?_, ?_⟩
  · exact congrArg (· ++ [u]) hm.visits
  · change r.queue.filter (· ∉ w.state.order ++ [u]) = w.queue.filter (· ∉ w.state.order ++ [u])
    rw [hfilter, hfilter, hm.queue]

theorem followPre (hm : w.Mirrors r) (policy : Policy) (u : LinkUnit) (p : Symbol)
    (chain : List LinkUnit) :
    Mirrors { w with state := { w.state.followPre policy u p with chain } }
      { r with state := (r.state.resolve policy p).2 } := by
  have halike := ((hm.alike.update Context.dropPre_unit u).resolve policy p).2
  have horder := w.state.order_followPre policy u p
  refine ⟨⟨halike.1, halike.2, halike.3, halike.4⟩, hm.visits.trans horder.symm, ?_⟩
  dsimp only
  rw [horder]
  exact hm.queue

end Mirrors

theorem Orderly.map_pending {t : State} (hw : Orderly policy s w) (hc : w.state.chain = u :: rest)
    (h : ∀ v k, v ≠ u → w.state.cursor? v = some k → t.cursor? v = some k) :
    (rest.map fun v ↦ (v, t.pending v)) = rest.map fun v ↦ (v, w.state.pending v) := by
  refine List.map_congr_left fun v hv ↦ ?_
  have hnodup := (List.nodup_append.1 hw.nodup).1
  rw [hc, List.nodup_cons] at hnodup
  have hvu : v ≠ u := fun heq ↦ hnodup.1 (heq ▸ hv)
  obtain ⟨k, hk⟩ := hw.exists_cursor (.inr (.inl (hc ▸ List.mem_cons_of_mem u hv)))
  rw [State.pending_eq (h v k hvu hk), State.pending_eq hk]

theorem Orderly.pending_followPre (hw : Orderly policy s w) (hc : w.state.chain = u :: rest)
    (hv : w.state.Resolves policy p v) (hvc : v ∉ w.state.chain) (hvo : v ∉ w.state.order) :
    (w.state.followPre policy u p).pending v = v.pres := by
  have hvu : v ≠ u := fun h ↦ hvc (by rw [hc, h]; exact List.mem_cons_self)
  have hagree := State.Agrees.update Context.dropPre_unit policy w.state u
  obtain ⟨k, hk⟩ : ∃ k, (w.state.followPre policy u p).cursor? v = some k :=
    Option.isSome_iff_exists.1 (State.isSome_cursor?_of_resolves (hagree.resolves_iff.2 hv))
  rw [State.pending_eq hk]
  exact State.pres_followPre hvu (fun k ↦ hw.fresh v k hvc hvo) hk

theorem Mirrors.follow_pass (hm : w.Mirrors r) (hdef : (r.state.resolve policy p).1 ≠ .undefined)
    (hv : ∀ v, w.state.Resolves policy p v → v ∈ w.state.order)
    (call : Walk → LinkUnit → Option Walk) :
    Recursive.follow policy call r p = some { r with state := (r.state.resolve policy p).2 } := by
  by_cases h : ∃ v, r.state.Resolves policy p v
  · obtain ⟨v, hr⟩ := h
    have hvisits : v ∈ r.visits := hm.visits ▸ hv v (hm.alike.resolves_iff.1 hr)
    exact Recursive.follow_of_visited (Recursive.resolve_of_resolves hr) hvisits
  · exact Recursive.follow_of_none (Recursive.resolve_of_not_resolves (not_exists.1 h) hdef)

theorem Mirrors.leads_followPre (hm : w.Mirrors r) (hw : Orderly policy s w)
    (hc : w.state.chain = u :: rest) (hp : w.state.pre? u = some p)
    (h : w.followPre policy u p = .next w') :
    ∃ r', w'.Mirrors r' ∧ Recursive.Leads policy w.state.frames r w'.state.frames r' := by
  obtain ⟨ps, ds, hk⟩ := State.exists_cursor_of_pre? hp
  have hchain := w.state.chain_followPre policy u p
  have hpending : w.state.pending u = p :: ps := State.pending_eq hk
  have hpending' : (w.state.followPre policy u p).pending u = ps :=
    State.pending_eq (State.cursor?_followPre hk)
  have hrest := hw.map_pending (t := w.state.followPre policy u p) hc
    fun v k hv ↦ State.cursor?_followPre_of_some hv
  have halike := hm.alike.update Context.dropPre_unit u
  -- Two of the four cases are failures: left are a prerequisite that is passed and one that is descended to.
  rcases w.followPre_cases policy u p with ⟨-, heq⟩ | ⟨hdef, hv, heq⟩ | ⟨v, -, -, heq⟩ |
    ⟨v, hv, hvc, hvo, heq⟩ <;> rw [heq] at h <;> cases h
  · refine ⟨_, hm.followPre policy u p _, fun n out hout ↦ ⟨n, ?_⟩⟩
    have hfollow := hm.follow_pass ((halike.resolve policy p).1 ▸ hdef) hv (Recursive.post policy n)
    unfold State.frames at hout ⊢
    dsimp only at hout
    rw [hchain, hc, List.map_cons, hpending', hrest] at hout
    rw [hc, List.map_cons, hpending, Recursive.resume_of_follow hfollow]
    exact hout
  · -- The frame for `v` is a call one level deeper, hence the larger bound.
    refine ⟨_, hm.followPre policy u p _, fun n out hout ↦ ⟨n + 1, ?_⟩⟩
    have hr := Recursive.resolve_of_resolves (hm.alike.resolves_iff.2 hv)
    change Recursive.resume policy n
      ((v :: w.state.chain).map fun x ↦ (x, (w.state.followPre policy u p).pending x)) _ = _ at hout
    rw [List.map_cons, hw.pending_followPre hc hv hvc hvo, hc, List.map_cons, hpending', hrest] at hout
    unfold State.frames
    rw [hc, List.map_cons, hpending]
    exact Recursive.resume_of_unvisited hr (hm.visits ▸ hvo) hout

theorem Mirrors.leads_visit (hm : w.Mirrors r) (hw : Orderly policy s w) (hi : Intact policy w)
    (hc : w.state.chain = u :: rest) (hp : w.state.pre? u = none)
    (h : (w.visit u rest).followDeps policy u = (none, w')) :
    ∃ r', w'.Mirrors r' ∧ Recursive.Leads policy w.state.frames r w'.state.frames r' := by
  have hu : u ∈ w.state.chain := hc ▸ List.mem_cons_self
  obtain ⟨k, hk⟩ := hw.exists_cursor (.inr (.inl hu))
  obtain ⟨r', hm', hdeps⟩ := (hm.visit u rest).followDeps hk h
  rw [hi u k (hw.not_mem_order hu) hk] at hdeps
  have hpending : w.state.pending u = [] := by
    rw [State.pending_eq hk, State.pres_eq_nil_of_pre? hp hk]
  have hrest := hw.map_pending (t := w'.state) hc
    fun v k hv hk ↦ cursor?_followDeps_of_ne (w := w.visit u rest) h hv hk
  have hchain : w'.state.chain = rest := chain_followDeps h
  refine ⟨r', hm', fun n out hout ↦ ⟨n, ?_⟩⟩
  unfold State.frames at hout ⊢
  rw [hchain, hrest] at hout
  rw [hc, List.map_cons, hpending, Recursive.resume, List.foldlM_nil, pure_bind]
  exact Option.bind_eq_some_iff.2 ⟨r', hdeps, hout⟩

theorem Mirrors.leads_begin (hm : w.Mirrors r) (hw : Orderly policy s w)
    (hc : w.state.chain = []) (hq : w.queue = u :: rest) (hu : u ∉ w.state.order) :
    ∃ r', Mirrors { w with queue := rest, state := { w.state with chain := [u] } } r' ∧
      Recursive.Leads policy w.state.frames r [(u, w.state.pending u)] r' := by
  have hqueue := hm.queue
  rw [hq, List.filter_cons_of_pos (by simpa using hu), ← hm.visits] at hqueue
  obtain ⟨queue, hfilter, hdrain⟩ := Recursive.drain_of_filter_eq_cons policy hqueue
  rw [hm.visits] at hfilter
  obtain ⟨k, hk⟩ := hw.exists_cursor (u := u) (.inr (.inr (hq ▸ List.mem_cons_self)))
  have hpending : w.state.pending u = u.pres := by
    rw [State.pending_eq hk, hw.fresh u k (hc ▸ List.not_mem_nil) hu hk]
  have halike := hm.alike
  refine ⟨{ r with queue }, ⟨⟨halike.1, halike.2, halike.3, halike.4⟩, hm.visits, hfilter⟩, ?_⟩
  intro n out hout
  obtain ⟨m, hm⟩ := hdrain n
  refine ⟨m, ?_⟩
  rw [hpending] at hout
  unfold State.frames
  rw [hc, List.map_nil, Recursive.resume, hm, hout]

theorem Mirrors.leads_step (hm : w.Mirrors r) (hw : Orderly policy s w) (hi : Intact policy w)
    (h : w.step policy = .next w') :
    ∃ r', w'.Mirrors r' ∧ Recursive.Leads policy w.state.frames r w'.state.frames r' := by
  unfold step at h
  split at h
  · next u rest hc =>
    split at h
    · next p hp => exact hm.leads_followPre hw hc hp h
    · next hp =>
      split at h
      · cases h
      · next heq =>
        cases h
        exact hm.leads_visit hw hi hc hp heq
  · next hc =>
    split at h
    · cases h
    · next u rest hq =>
      split at h
      · next hu =>
        cases h
        have hqueue := hm.queue
        rw [hq, List.filter_cons_of_neg (by simpa using hu)] at hqueue
        exact ⟨r, ⟨hm.alike, hm.visits, hqueue⟩, fun n out hout ↦ ⟨n, hout⟩⟩
      · next hu =>
        cases h
        exact hm.leads_begin hw hc hq hu

theorem Mirrors.leads_steps (hm : w.Mirrors r) (hw : Orderly policy s w) (hi : Intact policy w)
    (h : Steps policy w w') :
    ∃ r', w'.Mirrors r' ∧ Recursive.Leads policy w.state.frames r w'.state.frames r' := by
  induction h with
  | refl => exact ⟨r, hm, fun n out hout ↦ ⟨n, hout⟩⟩
  | tail hsteps hstep ih =>
    obtain ⟨r₁, hm₁, hleads₁⟩ := ih
    have hmoves := moves_of_steps [] hsteps
    obtain ⟨r₂, hm₂, hleads₂⟩ := hm₁.leads_step (hw.moves hmoves) (hi.moves hmoves) hstep
    -- Results are carried back, from the last step to the first.
    refine ⟨r₂, hm₂, fun n out hout ↦ ?_⟩
    obtain ⟨m, hmid⟩ := hleads₂ n out hout
    exact hleads₁ m out hmid

end Walk

theorem State.Fresh.intact {s : State} (hs : s.Fresh) (policy : Policy) :
    Walk.Intact policy ⟨s, [], []⟩ := by
  intro u k _ hk
  cases (hs.inactive u).symm.trans hk

/-- A traversal that succeeds visits what the recursion visits, in the same order, and leaves the same
symbols unresolved, external and to be included. -/
theorem traverse_eq_recursive {units : List LinkUnit} {extdefs includes : SymbolSet}
    {sink : Option SymbolSet} {s : State} {policy : Policy} {start : Option (List Symbol)}
    (hbuild : State.build units extdefs includes sink = .ok s)
    (hok : (s.traverse policy start).error = none) :
    ∃ r, (∃ n, ∀ m, n ≤ m → Recursive.traverse m s policy start = some r) ∧
      (s.traverse policy start).visits = r.visits ∧
      (s.traverse policy start).state.unresolved = r.state.unresolved ∧
      (s.traverse policy start).state.extdefs = r.state.extdefs ∧
      (s.traverse policy start).state.includes = r.state.includes := by
  have hs := State.fresh_of_build hbuild
  obtain ⟨w₁, w, hseeds, hsteps, hchain, hqueue, heq⟩ := State.traverse_of_ok hok
  have hmoves := Walk.moves_of_enqueueAll hseeds
  have hw₁ := (hs.ready.orderly policy).moves hmoves
  have hw := hw₁.moves (Walk.moves_of_steps [] hsteps)
  have hchain₁ : w₁.state.chain = [] := by
    have h := Walk.chain_enqueueAll ⟨s, [], []⟩ policy (s.seeds policy start)
    rw [hseeds] at h
    exact h.trans hs.chain
  have hstart : Walk.Mirrors ⟨s, [], []⟩ ⟨s, [], []⟩ :=
    ⟨⟨rfl, rfl, rfl, rfl⟩, hs.order.symm, rfl⟩
  obtain ⟨r₁, hm₁, hfirst⟩ := hstart.enqueueAll hseeds
  obtain ⟨r, hm, hleads⟩ := hm₁.leads_steps hw₁ ((hs.intact policy).moves hmoves) hsteps
  -- The queue of the recursion need not be empty here, but holds only visited units.
  have hdone : r.queue.filter (· ∉ r.visits) = [] := by
    rw [hm.visits, hm.queue, hqueue]
    rfl
  obtain ⟨k, hdrain⟩ := Recursive.drain_of_filter_eq_nil policy hdone
  unfold State.frames at hleads
  rw [hchain₁, hchain] at hleads
  obtain ⟨n, hn⟩ := hleads k _ hdrain
  refine ⟨{ r with queue := [] }, ⟨n, fun m hnm ↦ ?_⟩, ?_, ?_, ?_, ?_⟩
  · exact Option.bind_eq_some_iff.2 ⟨r₁, hfirst, Recursive.drain_mono hnm hn⟩
  · rw [heq, hm.visits, hw.order, hs.order, List.nil_append]
  · rw [heq, hm.alike.unresolved]
  · rw [heq, hm.alike.extdefs]
  · rw [heq, hm.alike.includes]

theorem Tangle.recursive_through_loop :
    State.build units (.ofList ["ext"]) (.ofList ["loop", "knot"]) (some ∅) = .ok fresh ∧
      (fresh.traverse policy (some ["main"])).error = none ∧
      ∃ r, (∃ n, ∀ m, n ≤ m → Recursive.traverse m fresh policy (some ["main"]) = some r) ∧
        [base, main, loop] = r.visits ∧
        some (.ofList ["ext", "missing", "sys"]) = r.state.unresolved ∧
        .ofList ["ext"] = r.state.extdefs ∧
        .ofList ["knot"] = r.state.includes := by
  have hok : (fresh.traverse policy (some ["main"])).error = none := by decide +kernel
  have hvisits : (fresh.traverse policy (some ["main"])).visits = [base, main, loop] := by
    decide +kernel
  have hunresolved : (fresh.traverse policy (some ["main"])).state.unresolved =
      some (.ofList ["ext", "missing", "sys"]) := by decide +kernel
  have hextdefs : (fresh.traverse policy (some ["main"])).state.extdefs = .ofList ["ext"] := by
    decide +kernel
  have hincludes : (fresh.traverse policy (some ["main"])).state.includes = .ofList ["knot"] := by
    decide +kernel
  have h := traverse_eq_recursive build_eq_fresh hok
  rw [hvisits, hunresolved, hextdefs, hincludes] at h
  exact ⟨build_eq_fresh, hok, h⟩

end LinkOrder
