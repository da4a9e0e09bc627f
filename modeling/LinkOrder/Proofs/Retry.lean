import LinkOrder.Proofs.Lifetime
import LinkOrder.Proofs.Reachability
import Mathlib.Logic.Function.Iterate

namespace LinkOrder

namespace Walk

variable {policy : Policy} {seeds : List Symbol} {s : State} {w w' : Walk} {e : LinkError}

theorem remaining_followPre_lt {u : LinkUnit} {p : Symbol} (hp : s.pre? u = some p) :
    (s.followPre policy u p).remaining < s.remaining :=
  Nat.lt_of_le_of_lt (State.remaining_resolve_le _ policy p) (State.remaining_dropPre_lt hp)

theorem remaining_followDep_lt {u : LinkUnit} {d : Symbol} (hd : s.dep? u = some d) :
    ((s.update u Context.dropDep).resolve policy d).2.remaining < s.remaining :=
  Nat.lt_of_le_of_lt (State.remaining_resolve_le _ policy d) (State.remaining_dropDep_lt hd)

theorem Move.remaining_le (h : Move policy seeds w w') : w'.state.remaining ≤ w.state.remaining := by
  cases h with
  | seed => exact State.remaining_resolve_le _ policy _
  | dep _ hd => exact Nat.le_of_lt (remaining_followDep_lt hd)
  | pass _ hp => exact Nat.le_of_lt (remaining_followPre_lt hp)
  | descend _ hp => exact Nat.le_of_lt (remaining_followPre_lt hp)
  | visit => exact Nat.le_refl _
  | skip => exact Nat.le_refl _
  | begin => exact Nat.le_refl _

theorem Moves.remaining_le (h : Moves policy seeds w w') :
    w'.state.remaining ≤ w.state.remaining := by
  induction h with
  | refl => exact Nat.le_refl _
  | tail _ hmove ih => exact Nat.le_trans hmove.remaining_le ih

theorem Fault.remaining_lt (h : Fault policy seeds w e w') :
    (∃ name ∈ seeds, (w.state.resolve policy name).1 = .undefined) ∨
      w'.state.remaining < w.state.remaining := by
  -- A walk fails at a seed, or at a reference that it does not meet again.
  cases h with
  | seed hname hdef => exact .inl ⟨_, hname, hdef⟩
  | dep _ hd => exact .inr (remaining_followDep_lt hd)
  | pre _ hp => exact .inr (remaining_followPre_lt hp)
  | cycle _ hp => exact .inr (remaining_followPre_lt hp)

end Walk

namespace State

open Walk

variable {s t : State} {policy : Policy} {start : Option (List Symbol)} {name : Symbol}
  {w : Walk} {names : List Symbol}

instance (s : State) (policy : Policy) (name : Symbol) : Decidable (s.Undefined policy name) :=
  inferInstanceAs (Decidable (_ ∧ _))

/-- The first seed that is undefined. -/
def undefinedSeed? (s : State) (policy : Policy) (start : Option (List Symbol)) : Option Symbol :=
  (s.seeds policy start).find? (s.Undefined policy ·)

theorem of_undefinedSeed? (h : s.undefinedSeed? policy start = some name) :
    s.Seed policy start name ∧ s.Undefined policy name :=
  ⟨mem_seeds.1 (List.mem_of_find?_eq_some h), by simpa using List.find?_some h⟩

theorem error_enqueueAll (hagree : s.Agrees policy w.state) (hnone : s.unresolved = none)
    (h : names.find? (s.Undefined policy ·) = some name) :
    (w.enqueueAll policy names).1 = some (.undefinedSymbol name) := by
  induction names generalizing w with
  | nil => cases h
  | cons n rest ih =>
    have hresolve : (w.state.resolve policy n).1 = .undefined ↔ s.Undefined policy n := by
      rw [resolve_eq_undefined_iff, hagree.undefined_iff, hagree.unresolved_eq_none_iff]
      exact and_iff_left hnone
    rw [Walk.enqueueAll, enqueue_eq]
    by_cases hn : s.Undefined policy n
    · have hname : n = name := by simpa [hn] using h
      rw [if_pos (hresolve.2 hn), hname]
    · rw [if_neg (mt hresolve.1 hn)]
      exact ih (hagree.trans (.resolve policy w.state n)) (by simpa [hn] using h)

theorem error_of_undefinedSeed? (hnone : s.unresolved = none)
    (h : s.undefinedSeed? policy start = some name) :
    (s.traverse policy start).error = some (.undefinedSymbol name) := by
  have herror : (Walk.enqueueAll ⟨s, [], []⟩ policy (s.seeds policy start)).1 = _ :=
    error_enqueueAll (.refl policy s) hnone h
  unfold traverse
  split
  · next heq =>
    rw [heq] at herror
    exact herror
  · next heq =>
    rw [heq] at herror
    cases herror

theorem find?_defNames (s : State) (policy : Policy) (p : Symbol → Bool) :
    (s.defNames.filter p).find? (s.Undefined policy ·) = none := by
  rw [List.find?_eq_none]
  intro name hname
  obtain ⟨u, hu, hd⟩ := List.mem_flatMap.1 (List.mem_filter.1 hname).1
  have hsome : (s.owner? name).isSome := List.find?_isSome.2 ⟨u, hu, by simpa using hd⟩
  simp only [decide_eq_true_eq]
  rintro ⟨-, hnone⟩
  rw [hnone] at hsome
  cases hsome

theorem Tally.undefinedSeed?_eq {M : Symbol → Prop} (h : s.Tally policy M t) :
    t.undefinedSeed? policy start = s.undefinedSeed? policy start := by
  have hpred : (fun name ↦ decide (t.Undefined policy name)) = fun name ↦ decide (s.Undefined policy name) := by
    funext name
    simp only [h.agrees.undefined_iff]
  -- The seeds of a traversal without a start change as symbols cease to be external, but all of them are defined.
  have hown : ∀ r : State,
      (if policy.inheritanceOnly then [] else r.defNames.filter (· ∉ r.extdefs)).find?
        (r.Undefined policy ·) = none := by
    intro r
    split
    · rfl
    · exact r.find?_defNames policy _
  have hincl : (if policy.exportIncludes then t.includes.toList else []) =
      if policy.exportIncludes then s.includes.toList else [] := by
    cases hp : policy.exportIncludes with
    | false => rfl
    | true =>
      have heq : t.includes = s.includes := SymbolSet.ext fun name ↦ by simp [h.includes, hp]
      rw [heq]
  unfold undefinedSeed? seeds
  rw [List.find?_append, List.find?_append, hincl]
  cases start with
  | none =>
    rw [Option.getD_none, Option.getD_none, hown t, hown s, hpred]
  | some names =>
    rw [Option.getD_some, Option.getD_some, hpred]

def again (policy : Policy) (start : Option (List Symbol)) (s : State) : State :=
  (s.traverse policy start).state

theorem Sound.again (hs : s.Sound) (policy : Policy) (start : Option (List Symbol)) :
    (s.again policy start).Sound := (hs.traverse policy start).1

theorem Sound.remaining_again_lt (hs : s.Sound)
    (hseed : s.unresolved = none → s.undefinedSeed? policy start = none)
    (h : (s.traverse policy start).error ≠ none) :
    (s.again policy start).remaining < s.remaining := by
  obtain ⟨e, he⟩ := Option.ne_none_iff_exists'.1 h
  obtain ⟨w, w', hmoves, hfault, heq⟩ := moves_of_error hs.idle he
  have hlt : w'.state.remaining < w.state.remaining := by
    refine hfault.remaining_lt.resolve_left ?_
    rintro ⟨name, hname, hdef⟩
    obtain ⟨N, htally⟩ := hmoves.tally
    obtain ⟨hundef, hnone⟩ := resolve_eq_undefined_iff.1 hdef
    have hfirst := List.find?_eq_none.1 (hseed (htally.agrees.unresolved_eq_none_iff.1 hnone)) name hname
    exact hfirst (by simpa using htally.agrees.undefined_iff.1 hundef)
  have hle : w.state.remaining ≤ s.remaining := hmoves.remaining_le
  rw [State.again, heq]
  exact Nat.lt_of_lt_of_le hlt hle

theorem Sound.error_again (hs : s.Sound) (hnone : s.unresolved = none)
    (h : s.undefinedSeed? policy start = some name) (n : Nat) :
    (((State.again policy start)^[n] s).traverse policy start).error =
      some (.undefinedSymbol name) := by
  induction n generalizing s with
  | zero => exact error_of_undefinedSeed? hnone h
  | succ n ih =>
    obtain ⟨M, htally⟩ := exists_tally hs.idle policy start
    rw [Function.iterate_succ_apply]
    apply ih (hs.again policy start)
    · exact htally.agrees.unresolved_eq_none_iff.2 hnone
    · exact htally.undefinedSeed?_eq.trans h

theorem Sound.exists_ok_again (hs : s.Sound)
    (hseed : s.unresolved = none → s.undefinedSeed? policy start = none) :
    ∃ n ≤ s.remaining, (((State.again policy start)^[n] s).traverse policy start).error = none := by
  -- On the references left to follow: a traversal that fails takes one of them off its cursor.
  induction hr : s.remaining using Nat.strong_induction_on generalizing s with
  | h m ih =>
    subst hr
    by_cases hok : (s.traverse policy start).error = none
    · exact ⟨0, Nat.zero_le _, hok⟩
    · obtain ⟨M, htally⟩ := exists_tally hs.idle policy start
      have hlt := hs.remaining_again_lt hseed hok
      obtain ⟨n, hn, hok'⟩ := ih _ hlt (hs.again policy start) (fun hnone ↦ by
        rw [State.again, htally.undefinedSeed?_eq]
        exact hseed (htally.agrees.unresolved_eq_none_iff.1 hnone)) rfl
      refine ⟨n + 1, by omega, ?_⟩
      rw [Function.iterate_succ_apply]
      exact hok'

end State

/-- A traversal either fails for a seed without an owner, and then in the same way however often it is made again, or
it succeeds once it was made again a number of times, which the references left to follow bound. -/
theorem fails_forever_or_passes {units seen : List LinkUnit} {extdefs includes : SymbolSet}
    {sink : Option SymbolSet} {s₀ s : State}
    (hbuild : State.build units extdefs includes sink = .ok s₀)
    (hs : Session (fun _ ↦ True) s₀ seen s) (policy : Policy) (start : Option (List Symbol)) :
    (∃ name, s.Seed policy start name ∧ s.Undefined policy name ∧ s.unresolved = none ∧
        ∀ n, (((State.again policy start)^[n] s).traverse policy start).error =
          some (.undefinedSymbol name)) ∨
      ∃ n ≤ s.remaining,
        (((State.again policy start)^[n] s).traverse policy start).error = none := by
  obtain ⟨hsound, -, -⟩ := hs.sound (State.sound_of_build hbuild)
  by_cases hseed : s.unresolved = none → s.undefinedSeed? policy start = none
  · exact .inr (hsound.exists_ok_again hseed)
  · rw [Classical.not_imp] at hseed
    obtain ⟨hnone, hsome⟩ := hseed
    obtain ⟨name, hname⟩ := Option.ne_none_iff_exists'.1 hsome
    obtain ⟨hmem, hundef⟩ := State.of_undefinedSeed? hname
    exact .inl ⟨name, hmem, hundef, hnone, hsound.error_again hnone hname⟩

namespace Knot

theorem cycle_passes_when_repeated :
    State.build [tie, loose] ∅ ∅ none = .ok fresh ∧ Session (fun _ ↦ True) fresh [] fresh ∧
      (fresh.traverse {} (some ["tie"])).error = some (.circularReference "tie" ["tie", "tie"]) ∧
      ((fresh.traverse {} (some ["tie"])).state.traverse {} (some ["tie"])).error = none ∧
      ((fresh.traverse {} (some ["tie"])).state.traverse {} (some ["tie"])).visits = [tie] :=
  ⟨rfl, .start, by decide +kernel, by decide +kernel, by decide +kernel⟩

theorem undefined_seed_fails_forever :
    State.build [tie, loose] ∅ ∅ none = .ok fresh ∧ Session (fun _ ↦ True) fresh [] fresh ∧
      ∀ n, (((State.again {} (some ["end", "gone"]))^[n] fresh).traverse {}
        (some ["end", "gone"])).error = some (.undefinedSymbol "gone") := by
  have hbuild : State.build [tie, loose] ∅ ∅ none = .ok fresh := rfl
  have hfirst : (fresh.traverse {} (some ["end", "gone"])).error = some (.undefinedSymbol "gone") := by
    decide +kernel
  refine ⟨hbuild, .start, ?_⟩
  rcases fails_forever_or_passes hbuild .start {} (some ["end", "gone"]) with
    ⟨name, -, -, -, hall⟩ | ⟨n, hn, hok⟩
  · cases hfirst.symm.trans (hall 0)
    exact hall
  · have hremaining : fresh.remaining = 2 := by decide +kernel
    rw [hremaining] at hn
    have hfails : ∀ n ≤ 2, (((State.again {} (some ["end", "gone"]))^[n] fresh).traverse {}
        (some ["end", "gone"])).error ≠ none := by decide +kernel
    exact absurd hok (hfails n hn)

end Knot

end LinkOrder
