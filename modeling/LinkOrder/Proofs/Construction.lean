import LinkOrder.Proofs.Session
import Mathlib.Data.List.Nodup

namespace LinkOrder

variable {extdefs includes : SymbolSet} {sink : Option SymbolSet} {units earlier rest : List LinkUnit}
  {u : LinkUnit} {d : Symbol}

theorem find?_of_checkDefs {done l : List Symbol} (h : checkDefs extdefs earlier u done l = .ok ())
    (hd : d ∈ l) : earlier.find? (d ∈ ·.defs) = none := by
  have hcons : ∀ {x rest}, earlier.find? (x ∈ ·.defs) = none →
      (d ∈ rest → earlier.find? (d ∈ ·.defs) = none) → d ∈ x :: rest →
      earlier.find? (d ∈ ·.defs) = none := by
    intro x rest hx ih hd
    rcases List.mem_cons.1 hd with rfl | hd
    · exact hx
    · exact ih hd
  fun_induction checkDefs extdefs earlier u done l with
  | case1 => cases hd
  | case2 => cases h
  | case3 => cases h
  | case4 done x rest hx _ _ ih => exact hcons hx (ih h) hd
  | case5 => cases h
  | case6 => cases h
  | case7 done x rest hx _ first _ _ _ ih => exact hcons hx (ih h) hd

theorem checkUnits_cons : checkUnits extdefs earlier (u :: rest) = .ok () ↔
    checkUnit extdefs earlier u = .ok () ∧ checkUnits extdefs (earlier ++ [u]) rest = .ok () := by
  rw [checkUnits]
  cases checkUnit extdefs earlier u with
  | error e => simp [bind, Except.bind]
  | ok => simp [bind, Except.bind]

theorem of_checkUnit (h : checkUnit extdefs earlier u = .ok ()) :
    u.name ∉ earlier.map (·.name) ∧ ∀ d ∈ u.defs, earlier.find? (d ∈ ·.defs) = none := by
  unfold checkUnit at h
  split at h
  · cases h
  · next hname =>
    refine ⟨?_, fun d hd ↦ find?_of_checkDefs h hd⟩
    simpa using hname

theorem nodup_of_checkUnits (h : checkUnits extdefs earlier rest = .ok ())
    (hnodup : (earlier.map (·.name)).Nodup) : ((earlier ++ rest).map (·.name)).Nodup := by
  induction rest generalizing earlier with
  | nil => simpa using hnodup
  | cons u rest ih =>
    obtain ⟨hu, hrest⟩ := checkUnits_cons.1 h
    have hstep : ((earlier ++ [u]).map (·.name)).Nodup := by
      rw [List.map_append, List.map_singleton, List.nodup_append_comm]
      exact List.nodup_cons.2 ⟨(of_checkUnit hu).1, hnodup⟩
    simpa using ih hrest hstep

theorem find?_of_checkUnits (h : checkUnits extdefs earlier rest = .ok ()) (hu : u ∈ rest)
    (hd : d ∈ u.defs) : (earlier ++ rest).find? (d ∈ ·.defs) = some u := by
  induction rest generalizing earlier with
  | nil => cases hu
  | cons v rest ih =>
    obtain ⟨hv, hrest⟩ := checkUnits_cons.1 h
    rcases List.mem_cons.1 hu with rfl | hu
    · rw [List.find?_append, (of_checkUnit hv).2 d hd]
      simp [hd]
    · simpa using ih hrest hu

namespace State

variable {s : State}

theorem checkUnits_of_build (h : build units extdefs includes sink = .ok s) :
    checkUnits extdefs [] units = .ok () := by
  unfold build at h
  cases hc : checkUnits extdefs [] units with
  | error e =>
    rw [hc] at h
    cases h
  | ok => rfl

theorem units_of_build (h : build units extdefs includes sink = .ok s) : s.units = units := by
  rw [eq_of_build h, State.units, List.map_map]
  exact List.map_id units

theorem nodup_names_of_build (h : build units extdefs includes sink = .ok s) :
    (s.units.map (·.name)).Nodup := by
  rw [units_of_build h]
  exact nodup_of_checkUnits (checkUnits_of_build h) .nil

theorem owner?_of_build (h : build units extdefs includes sink = .ok s) (hu : u ∈ s.units)
    (hd : d ∈ u.defs) : s.owner? d = some u := by
  unfold owner?
  rw [units_of_build h] at hu ⊢
  exact find?_of_checkUnits (checkUnits_of_build h) hu hd

theorem owner?_eq_some_iff (h : build units extdefs includes sink = .ok s) :
    s.owner? d = some u ↔ u ∈ units ∧ d ∈ u.defs := by
  rw [← units_of_build h]
  constructor
  · intro ho
    exact ⟨List.mem_of_find?_eq_some ho, by simpa using List.find?_some ho⟩
  · intro hu
    exact owner?_of_build h hu.1 hu.2

end State

end LinkOrder
