import LinkOrder.Proofs.Construction
import Mathlib.Tactic.Tauto

namespace LinkOrder

variable {extdefs includes : SymbolSet} {sink : Option SymbolSet} {units units' earlier rest : List LinkUnit}
  {u : LinkUnit} {d : Symbol}

/-- The symbols are external all together, or none of them is. -/
def Whole (extdefs : SymbolSet) (l : List Symbol) : Prop := (∀ d ∈ l, d ∈ extdefs) ∨ ∀ d ∈ l, d ∉ extdefs

/-- The units fit together, in whatever order. -/
structure Accepted (extdefs : SymbolSet) (units : List LinkUnit) : Prop where
  names : (units.map (·.name)).Nodup
  defs : (units.flatMap (·.defs)).Nodup
  whole : ∀ u ∈ units, Whole extdefs u.defs

theorem Accepted.perm (h : Accepted extdefs units) (hperm : units.Perm units') : Accepted extdefs units' where
  names := (hperm.map _).nodup_iff.1 h.names
  defs := (hperm.flatMap_right _).nodup_iff.1 h.defs
  whole u hu := h.whole u (hperm.mem_iff.2 hu)

theorem Whole.iff {l : List Symbol} {first : Symbol} (h : Whole extdefs l) (hfirst : first ∈ l) (hd : d ∈ l) :
    d ∈ extdefs ↔ first ∈ extdefs := by
  rcases h with h | h
  · exact iff_of_true (h d hd) (h first hfirst)
  · exact iff_of_false (h d hd) (h first hfirst)

theorem Whole.of_iff {l : List Symbol} (first : Symbol) (h : ∀ d ∈ l, d ∈ extdefs ↔ first ∈ extdefs) :
    Whole extdefs l := by
  by_cases hfirst : first ∈ extdefs
  · exact .inl fun d hd ↦ (h d hd).2 hfirst
  · exact .inr fun d hd hext ↦ hfirst ((h d hd).1 hext)

theorem find?_eq_none_iff : earlier.find? (d ∈ ·.defs) = none ↔ d ∉ earlier.flatMap (·.defs) := by
  simp

theorem checkDefs_eq_ok_iff {done l : List Symbol} (hnodup : done.Nodup) (hwhole : Whole extdefs done) :
    checkDefs extdefs earlier u done l = .ok () ↔
      (∀ d ∈ l, d ∉ earlier.flatMap (·.defs)) ∧ (done ++ l).Nodup ∧ Whole extdefs (done ++ l) := by
  fun_induction checkDefs extdefs earlier u done l with
  | case1 => simp [hnodup, hwhole]
  | case2 done x rest v hv =>
    refine iff_of_false (by simp) fun h ↦ ?_
    have hnone := find?_eq_none_iff.2 (h.1 x List.mem_cons_self)
    cases hnone.symm.trans hv
  | case3 done x rest _ hx =>
    refine iff_of_false (by simp) fun h ↦ ?_
    exact (List.nodup_append.1 h.2.1).2.2 x hx x List.mem_cons_self rfl
  | case4 done x rest hx _ hhead ih =>
    obtain rfl : done = [] := List.head?_eq_none_iff.1 hhead
    have hsingle : Whole extdefs [x] := .of_iff x fun d hd ↦ by rw [List.mem_singleton.1 hd]
    rw [ih (List.nodup_singleton x) hsingle, List.forall_mem_cons]
    exact and_congr_left fun _ ↦ (and_iff_right (find?_eq_none_iff.1 hx)).symm
  | case5 done x rest _ _ first hhead hext =>
    refine iff_of_false (by simp) fun h ↦ hext.2 ?_
    have hfirst := List.mem_append_left (x :: rest) (List.mem_of_head? hhead)
    exact (h.2.2.iff hfirst (by simp)).1 hext.1
  | case6 done x rest _ _ first hhead _ hext =>
    refine iff_of_false (by simp) fun h ↦ hext.1 ?_
    have hfirst := List.mem_append_left (x :: rest) (List.mem_of_head? hhead)
    exact (h.2.2.iff hfirst (by simp)).2 hext.2
  | case7 done x rest hx hnew first hhead hext hext' ih =>
    have hfirst := List.mem_of_head? hhead
    have hsame : x ∈ extdefs ↔ first ∈ extdefs := by tauto
    have hnodup' : (done ++ [x]).Nodup := by
      rw [List.nodup_append_comm]
      exact List.nodup_cons.2 ⟨hnew, hnodup⟩
    have hwhole' : Whole extdefs (done ++ [x]) := by
      refine .of_iff first fun d hd ↦ ?_
      rcases List.mem_append.1 hd with hd | hd
      · exact hwhole.iff hfirst hd
      · exact List.mem_singleton.1 hd ▸ hsame
    rw [ih hnodup' hwhole', List.forall_mem_cons, List.append_assoc]
    exact and_congr_left fun _ ↦ (and_iff_right (find?_eq_none_iff.1 hx)).symm

theorem checkUnit_eq_ok_iff (h : Accepted extdefs earlier) :
    checkUnit extdefs earlier u = .ok () ↔ Accepted extdefs (earlier ++ [u]) := by
  have hnames : earlier.any (·.name = u.name) = true ↔ u.name ∈ earlier.map (·.name) := by
    simp
  unfold checkUnit
  split
  · next hname =>
    refine iff_of_false (by simp) fun haccepted ↦ ?_
    have hnodup := haccepted.names
    rw [List.map_append] at hnodup
    exact (List.nodup_append.1 hnodup).2.2 _ (hnames.1 hname) _ List.mem_cons_self rfl
  · next hname =>
    rw [checkDefs_eq_ok_iff .nil (.inl (by simp)), List.nil_append]
    constructor
    · rintro ⟨hearlier, hnodup, hwhole⟩
      refine ⟨?_, ?_, ?_⟩
      · rw [List.map_append, List.nodup_append_comm]
        exact List.nodup_cons.2 ⟨fun hin ↦ hname (hnames.2 hin), h.names⟩
      · rw [List.flatMap_append, List.flatMap_singleton]
        refine List.nodup_append.2 ⟨h.defs, hnodup, fun d hd d' hd' heq ↦ ?_⟩
        exact hearlier d' hd' (heq ▸ hd)
      · intro v hv
        rcases List.mem_append.1 hv with hv | hv
        · exact h.whole v hv
        · exact List.mem_singleton.1 hv ▸ hwhole
    · intro haccepted
      have hdefs := haccepted.defs
      rw [List.flatMap_append, List.flatMap_singleton, List.nodup_append] at hdefs
      exact ⟨fun d hd hin ↦ hdefs.2.2 d hin d hd rfl, hdefs.2.1, haccepted.whole u (by simp)⟩

theorem Accepted.of_append (h : Accepted extdefs (earlier ++ rest)) : Accepted extdefs earlier where
  names := by
    have hnames := h.names
    rw [List.map_append] at hnames
    exact hnames.of_append_left
  defs := by
    have hdefs := h.defs
    rw [List.flatMap_append] at hdefs
    exact hdefs.of_append_left
  whole u hu := h.whole u (List.mem_append_left _ hu)

theorem checkUnits_eq_ok_iff (h : Accepted extdefs earlier) :
    checkUnits extdefs earlier rest = .ok () ↔ Accepted extdefs (earlier ++ rest) := by
  induction rest generalizing earlier with
  | nil => simp [checkUnits, h]
  | cons u rest ih =>
    rw [checkUnits_cons, checkUnit_eq_ok_iff h]
    constructor
    · rintro ⟨hu, hrest⟩
      rw [ih hu, List.append_assoc] at hrest
      exact hrest
    · intro hall
      rw [← List.singleton_append, ← List.append_assoc] at hall
      exact ⟨hall.of_append, (ih hall.of_append).2 hall⟩

theorem State.exists_build_iff : (∃ s, State.build units extdefs includes sink = .ok s) ↔ Accepted extdefs units := by
  have hnil : Accepted extdefs [] := ⟨.nil, .nil, by simp⟩
  have hchecks : checkUnits extdefs [] units = .ok () ↔ Accepted extdefs ([] ++ units) :=
    checkUnits_eq_ok_iff hnil
  rw [List.nil_append] at hchecks
  rw [← hchecks]
  constructor
  · rintro ⟨s, hs⟩
    exact checkUnits_of_build hs
  · intro hok
    unfold build
    rw [hok]
    exact ⟨_, rfl⟩

theorem find?_name_eq_some_iff {name : String} (h : (units.map (·.name)).Nodup) :
    units.find? (·.name = name) = some u ↔ u ∈ units ∧ u.name = name := by
  constructor
  · intro hfind
    exact ⟨List.mem_of_find?_eq_some hfind, by simpa using List.find?_some hfind⟩
  · rintro ⟨hu, rfl⟩
    have hsome : (units.find? (·.name = u.name)).isSome := List.find?_isSome.2 ⟨u, hu, by simp⟩
    obtain ⟨v, hv⟩ := Option.isSome_iff_exists.1 hsome
    have hname : v.name = u.name := by simpa using List.find?_some hv
    rw [hv, List.inj_on_of_nodup_map h (List.mem_of_find?_eq_some hv) hu hname]

theorem State.context?_eq_some_iff {s : State} {name : String} {c : Context}
    (h : State.build units extdefs includes sink = .ok s) :
    s.context? name = some c ↔ ∃ u ∈ units, u.name = name ∧ c = { unit := u } := by
  have hfind : s.context? name = (units.find? (·.name = name)).map ({ unit := · }) := by
    rw [eq_of_build h, context?, List.find?_map]
    rfl
  have hnames := nodup_names_of_build h
  rw [units_of_build h] at hnames
  rw [hfind, Option.map_eq_some_iff]
  constructor
  · rintro ⟨u, hu, rfl⟩
    obtain ⟨hmem, hname⟩ := (find?_name_eq_some_iff hnames).1 hu
    exact ⟨u, hmem, hname, rfl⟩
  · rintro ⟨u, hmem, hname, rfl⟩
    exact ⟨u, (find?_name_eq_some_iff hnames).2 ⟨hmem, hname⟩, rfl⟩

/-- A state can be built just from units that fit together. It finds each of them by its definitions and by its name,
with nothing followed yet, and lists units and definitions as they were given. -/
theorem built_from_fitting_units (units : List LinkUnit) (extdefs includes : SymbolSet) (sink : Option SymbolSet) :
    ((∃ s, State.build units extdefs includes sink = .ok s) ↔ Accepted extdefs units) ∧
      ∀ s, State.build units extdefs includes sink = .ok s →
        (∀ d u, s.owner? d = some u ↔ u ∈ units ∧ d ∈ u.defs) ∧
          (∀ name c, s.context? name = some c ↔ ∃ u ∈ units, u.name = name ∧ c = { unit := u }) ∧
          s.units = units ∧ s.defNames = units.flatMap (·.defs) := by
  refine ⟨State.exists_build_iff, fun s hs ↦ ⟨fun d u ↦ State.owner?_eq_some_iff hs, ?_, State.units_of_build hs, ?_⟩⟩
  · intro name c
    exact State.context?_eq_some_iff hs
  · rw [State.defNames, State.units_of_build hs]

namespace Gate

def lock : LinkUnit := { name := "lock", defs := ["bolt", "key"] }

def gate : LinkUnit := { name := "gate", defs := ["hinge", "lock"], pres := ["key"] }

def fresh : State := { contexts := [lock, gate].map ({ unit := · }), extdefs := .ofList ["bolt", "key"] }

theorem lock_fits_as_a_whole :
    State.build [lock, gate] (.ofList ["bolt", "key"]) ∅ none = .ok fresh ∧
      Accepted (.ofList ["bolt", "key"]) [lock, gate] ∧
      fresh.owner? "lock" = some gate ∧ fresh.context? "lock" = some { unit := lock } ∧
      fresh.defNames = ["bolt", "key", "hinge", "lock"] ∧ ¬Accepted (.ofList ["key"]) [lock, gate] := by
  have hbuild : State.build [lock, gate] (.ofList ["bolt", "key"]) ∅ none = .ok fresh := rfl
  have hreject : State.build [lock, gate] (.ofList ["key"]) ∅ none = .error (.partialExterns "lock" "bolt" "key") := rfl
  obtain ⟨hiff, htables⟩ := built_from_fitting_units [lock, gate] (.ofList ["bolt", "key"]) ∅ none
  obtain ⟨howner, hcontext, -, hdefs⟩ := htables fresh hbuild
  refine ⟨hbuild, hiff.1 ⟨fresh, hbuild⟩, ?_, ?_, hdefs, ?_⟩
  · exact (howner "lock" gate).2 ⟨by simp, by simp [gate]⟩
  · exact (hcontext "lock" _).2 ⟨lock, by simp, rfl, rfl⟩
  · intro haccepted
    obtain ⟨s, hs⟩ := (built_from_fitting_units [lock, gate] (.ofList ["key"]) ∅ none).1.2 haccepted
    cases hreject.symm.trans hs

end Gate

end LinkOrder
