import LinkOrder.Proofs.Acceptance
import Mathlib.Data.List.Induction

namespace LinkOrder

variable {extdefs includes : SymbolSet} {sink : Option SymbolSet} {units earlier rest : List LinkUnit}
  {u v : LinkUnit} {d : Symbol} {before after : List Symbol} {e : LinkError}

/-- Of these units, `v` is the first that defines `d`. -/
def FirstOwner (units : List LinkUnit) (d : Symbol) (v : LinkUnit) : Prop :=
  d ∈ v.defs ∧ ∃ before after, units = before ++ v :: after ∧ ∀ w ∈ before, d ∉ w.defs

def Occurred (earlier : List LinkUnit) (before : List Symbol) (d : Symbol) : Prop :=
  d ∈ earlier.flatMap (·.defs) ∨ d ∈ before

/-- The definition `d` of `u`, which follows those in `before`, occurred already, or it is external where the first
definition of `u` is not, or the other way round. -/
def Clashes (extdefs : SymbolSet) (earlier : List LinkUnit) (u : LinkUnit) (before : List Symbol) (d : Symbol) : Prop :=
  Occurred earlier before d ∨ ∃ first, u.defs.head? = some first ∧ ¬(d ∈ extdefs ↔ first ∈ extdefs)

def Clear (extdefs : SymbolSet) (earlier : List LinkUnit) (u : LinkUnit) (before : List Symbol) : Prop :=
  ∀ done d rest, before = done ++ d :: rest → ¬Clashes extdefs earlier u done d

/-- The errors for a definition that clashes. That it occurred already comes before that it is external or not. -/
inductive ClashError (extdefs : SymbolSet) (earlier : List LinkUnit) (u : LinkUnit) (before : List Symbol)
    (d : Symbol) : LinkError → Prop
  | occurred {v : LinkUnit} : Occurred earlier before d → FirstOwner (earlier ++ [u]) d v →
      ClashError extdefs earlier u before d (.multipleDefinitions d u.name v.name)
  | own {first : Symbol} : ¬Occurred earlier before d → u.defs.head? = some first → d ∉ extdefs → first ∈ extdefs →
      ClashError extdefs earlier u before d (.partialExterns u.name d first)
  | external {first : Symbol} : ¬Occurred earlier before d → u.defs.head? = some first → first ∉ extdefs →
      d ∈ extdefs → ClashError extdefs earlier u before d (.partialExterns u.name first d)

/-- What is wrong with `u` after the units in `earlier`. -/
inductive Defect (extdefs : SymbolSet) (earlier : List LinkUnit) (u : LinkUnit) : LinkError → Prop
  | name : u.name ∈ earlier.map (·.name) → Defect extdefs earlier u (.duplicateSymbol u.name)
  | defn {before after : List Symbol} {d : Symbol} {e : LinkError} : u.name ∉ earlier.map (·.name) →
      u.defs = before ++ d :: after → Clear extdefs earlier u before → Clashes extdefs earlier u before d →
      ClashError extdefs earlier u before d e → Defect extdefs earlier u e

theorem firstOwner_iff : FirstOwner units d v ↔ units.find? (d ∈ ·.defs) = some v := by
  simp [FirstOwner, List.find?_eq_some_iff_append]

theorem occurred_iff : Occurred earlier before d ↔ earlier.find? (d ∈ ·.defs) ≠ none ∨ d ∈ before := by
  rw [Occurred, Ne, find?_eq_none_iff, not_not]

theorem Clashes.exists_error (hd : d ∈ u.defs) (h : Clashes extdefs earlier u before d) :
    ∃ e, ClashError extdefs earlier u before d e := by
  by_cases hocc : Occurred earlier before d
  · have hsome : ((earlier ++ [u]).find? (d ∈ ·.defs)).isSome := List.find?_isSome.2 ⟨u, by simp, by simpa using hd⟩
    obtain ⟨v, hv⟩ := Option.isSome_iff_exists.1 hsome
    exact ⟨_, .occurred hocc (firstOwner_iff.2 hv)⟩
  · obtain ⟨first, hfirst, hmixed⟩ := h.resolve_left hocc
    by_cases hext : d ∈ extdefs
    · have hown : first ∉ extdefs := fun h ↦ hmixed (iff_of_true hext h)
      exact ⟨_, .external hocc hfirst hown hext⟩
    · have hfirst' : first ∈ extdefs := by
        by_contra h
        exact hmixed (iff_of_false hext h)
      exact ⟨_, .own hocc hfirst hext hfirst'⟩

theorem checkDefs_cons {first : Symbol} (hnew : ¬Occurred earlier before d) (hfirst : before.head? = some first) :
    checkDefs extdefs earlier u before (d :: after) =
      if d ∈ extdefs ∧ first ∉ extdefs then .error (.partialExterns u.name first d)
      else if d ∉ extdefs ∧ first ∈ extdefs then .error (.partialExterns u.name d first)
      else checkDefs extdefs earlier u (before ++ [d]) after := by
  rw [occurred_iff, not_or, not_not] at hnew
  rw [checkDefs, hnew.1]
  simp only [hnew.2, if_false, hfirst]

theorem ClashError.checkDefs_eq (hu : u.defs = before ++ d :: after) (h : ClashError extdefs earlier u before d e) :
    checkDefs extdefs earlier u before (d :: after) = .error e := by
  -- Had nothing come before `d`, it would be the first itself, and not differ from it.
  have hhead : ∀ first, u.defs.head? = some first → ¬(d ∈ extdefs ↔ first ∈ extdefs) → before.head? = some first := by
    intro first hfirst hmixed
    rw [hu] at hfirst
    cases before with
    | nil =>
      cases hfirst
      exact absurd Iff.rfl hmixed
    | cons x before => exact hfirst
  cases h with
  | @occurred v hocc hv =>
    rw [firstOwner_iff, List.find?_append] at hv
    rw [occurred_iff] at hocc
    rw [checkDefs]
    cases hfind : earlier.find? (d ∈ ·.defs) with
    | some w =>
      rw [hfind, Option.some_or] at hv
      cases hv
      rfl
    | none =>
      have huv : u = v := by
        have hd : d ∈ u.defs := hu ▸ List.mem_append_right _ List.mem_cons_self
        simpa [hfind, hd] using hv
      simp only [hocc.resolve_left (not_not.2 hfind), if_true, huv]
  | @own first hnew hfirst hown hext =>
    rw [checkDefs_cons hnew (hhead first hfirst (by simp [hown, hext])), if_neg fun h ↦ hown h.1, if_pos ⟨hown, hext⟩]
  | @external first hnew hfirst hown hext =>
    rw [checkDefs_cons hnew (hhead first hfirst (by simp [hown, hext])), if_pos ⟨hext, hown⟩]

theorem checkDefs_of_not_clashes (hu : u.defs = before ++ d :: after) (h : ¬Clashes extdefs earlier u before d) :
    checkDefs extdefs earlier u before (d :: after) = checkDefs extdefs earlier u (before ++ [d]) after := by
  obtain ⟨hnew, hsame⟩ := not_or.1 h
  cases before with
  | nil =>
    rw [occurred_iff, not_or, not_not] at hnew
    rw [checkDefs, hnew.1]
    rfl
  | cons first before =>
    have hiff : d ∈ extdefs ↔ first ∈ extdefs := by
      by_contra hmixed
      exact hsame ⟨first, by rw [hu]; rfl, hmixed⟩
    rw [checkDefs_cons hnew rfl, if_neg fun h ↦ h.2 (hiff.1 h.1), if_neg fun h ↦ h.1 (hiff.2 h.2)]

theorem Clear.snoc (h : Clear extdefs earlier u before) (hd : ¬Clashes extdefs earlier u before d) :
    Clear extdefs earlier u (before ++ [d]) := by
  intro done x rest hsplit
  rcases List.eq_nil_or_concat rest with rfl | ⟨rest, y, rfl⟩
  · obtain ⟨rfl, hx⟩ := List.append_inj' hsplit rfl
    cases hx
    exact hd
  · rw [List.concat_eq_append, ← List.cons_append, ← List.append_assoc] at hsplit
    exact h done x rest (List.append_inj' hsplit rfl).1

theorem Clear.of_snoc (h : Clear extdefs earlier u (before ++ [d])) :
    Clear extdefs earlier u before ∧ ¬Clashes extdefs earlier u before d := by
  refine ⟨fun done x rest hsplit ↦ h done x (rest ++ [d]) ?_, h before d [] rfl⟩
  rw [hsplit, List.append_assoc, List.cons_append]

theorem Clear.checkDefs_eq (hu : u.defs = before ++ after) (h : Clear extdefs earlier u before) :
    checkDefs extdefs earlier u [] u.defs = checkDefs extdefs earlier u before after := by
  induction before using List.reverseRecOn generalizing after with
  | nil => rw [hu, List.nil_append]
  | append_singleton before d ih =>
    obtain ⟨hclear, hd⟩ := h.of_snoc
    rw [List.append_assoc, List.singleton_append] at hu
    rw [ih hu hclear, checkDefs_of_not_clashes hu hd]

theorem exists_first_clash (h : ¬Clear extdefs earlier u before) :
    ∃ done d rest, before = done ++ d :: rest ∧ Clear extdefs earlier u done ∧ Clashes extdefs earlier u done d := by
  induction before using List.reverseRecOn with
  | nil => exact absurd (fun done d rest hsplit ↦ by simp at hsplit) h
  | append_singleton before d ih =>
    by_cases hclear : Clear extdefs earlier u before
    · have hd : Clashes extdefs earlier u before d := by
        by_contra hd
        exact h (hclear.snoc hd)
      exact ⟨before, d, [], rfl, hclear, hd⟩
    · obtain ⟨done, x, rest, hsplit, hdone⟩ := ih hclear
      refine ⟨done, x, rest ++ [d], ?_, hdone⟩
      rw [hsplit, List.append_assoc, List.cons_append]

theorem checkUnit_eq_error_iff : checkUnit extdefs earlier u = .error e ↔ Defect extdefs earlier u e := by
  have hnames : earlier.any (·.name = u.name) = true ↔ u.name ∈ earlier.map (·.name) := by
    simp
  unfold checkUnit
  rw [ite_cond_congr (propext hnames)]
  constructor
  · intro h
    split at h
    · next hname =>
      cases h
      exact .name hname
    · next hname =>
      by_cases hclear : Clear extdefs earlier u u.defs
      · rw [hclear.checkDefs_eq (List.append_nil _).symm] at h
        cases h
      · obtain ⟨before, d, after, hu, hbefore, hd⟩ := exists_first_clash hclear
        obtain ⟨e', he'⟩ := hd.exists_error (hu ▸ List.mem_append_right _ List.mem_cons_self)
        rw [hbefore.checkDefs_eq hu, he'.checkDefs_eq hu] at h
        cases h
        exact .defn hname hu hbefore hd he'
  · intro h
    cases h with
    | name hname => rw [if_pos hname]
    | defn hname hu hbefore _ he => rw [if_neg hname, hbefore.checkDefs_eq hu, he.checkDefs_eq hu]

theorem checkUnits_eq_error_iff : checkUnits extdefs earlier units = .error e ↔
    ∃ first u later, units = first ++ u :: later ∧ checkUnits extdefs earlier first = .ok () ∧
      checkUnit extdefs (earlier ++ first) u = .error e := by
  induction units generalizing earlier with
  | nil => simp [checkUnits]
  | cons v units ih =>
    cases hv : checkUnit extdefs earlier v with
    | error e' =>
      have hfail : checkUnits extdefs earlier (v :: units) = .error e' := by simp [checkUnits, hv, bind, Except.bind]
      rw [hfail]
      constructor
      · intro h
        cases h
        exact ⟨[], v, units, rfl, rfl, by simpa using hv⟩
      · rintro ⟨first, u, later, hsplit, hfirst, hu⟩
        cases first with
        | nil =>
          cases hsplit
          rw [List.append_nil, hv] at hu
          exact hu
        | cons x first =>
          cases hsplit
          cases hv.symm.trans (checkUnits_cons.1 hfirst).1
    | ok =>
      have hpass : checkUnits extdefs earlier (v :: units) = checkUnits extdefs (earlier ++ [v]) units := by
        simp [checkUnits, hv, bind, Except.bind]
      rw [hpass, ih]
      constructor
      · rintro ⟨first, u, later, rfl, hfirst, hu⟩
        refine ⟨v :: first, u, later, rfl, checkUnits_cons.2 ⟨hv, hfirst⟩, ?_⟩
        rwa [List.append_assoc, List.singleton_append] at hu
      · rintro ⟨first, u, later, hsplit, hfirst, hu⟩
        cases first with
        | nil =>
          cases hsplit
          rw [List.append_nil] at hu
          cases hv.symm.trans hu
        | cons x first =>
          cases hsplit
          refine ⟨first, u, later, rfl, (checkUnits_cons.1 hfirst).2, ?_⟩
          rwa [List.append_assoc, List.singleton_append]

theorem State.build_eq_error_iff :
    State.build units extdefs includes sink = .error e ↔ checkUnits extdefs [] units = .error e := by
  unfold build
  cases checkUnits extdefs [] units with
  | error e' => simp [bind, Except.bind]
  | ok => simp [bind, Except.bind, pure, Except.pure]

/-- Units are rejected for the first of them that does not fit those before it, with the error for its first defect. -/
theorem rejected_for_first_defect (units : List LinkUnit) (extdefs includes : SymbolSet) (sink : Option SymbolSet)
    (e : LinkError) :
    State.build units extdefs includes sink = .error e ↔
      ∃ earlier u later, units = earlier ++ u :: later ∧ Accepted extdefs earlier ∧
        ¬Accepted extdefs (earlier ++ [u]) ∧ Defect extdefs earlier u e := by
  have hnil : Accepted extdefs [] := ⟨.nil, .nil, by simp⟩
  rw [State.build_eq_error_iff, checkUnits_eq_error_iff]
  constructor
  · rintro ⟨earlier, u, later, hsplit, hearlier, hu⟩
    rw [List.nil_append] at hu
    have haccepted : Accepted extdefs earlier := (checkUnits_eq_ok_iff hnil).1 hearlier
    refine ⟨earlier, u, later, hsplit, haccepted, fun h ↦ ?_, checkUnit_eq_error_iff.1 hu⟩
    cases hu.symm.trans ((checkUnit_eq_ok_iff haccepted).2 h)
  · rintro ⟨earlier, u, later, hsplit, haccepted, -, hdefect⟩
    exact ⟨earlier, u, later, hsplit, (checkUnits_eq_ok_iff hnil).2 haccepted, checkUnit_eq_error_iff.2 hdefect⟩

namespace Fence

def rail : LinkUnit := { name := "rail", defs := ["hinge", "plank"] }

def post : LinkUnit := { name := "post", defs := ["stone", "bolt", "stone", "hinge"] }

-- The second definition of `post` is external and the first is not, before the third repeats the first and the fourth
-- is one of `rail`.
example : State.build [rail, post] (.ofList ["bolt"]) ∅ none = .error (.partialExterns "post" "stone" "bolt") := rfl

example : State.build [rail, post] ∅ ∅ none = .error (.multipleDefinitions "stone" "post" "post") := rfl

example : State.build [rail, Gate.lock, post] ∅ ∅ none = .error (.multipleDefinitions "bolt" "post" "lock") := rfl

end Fence

end LinkOrder
