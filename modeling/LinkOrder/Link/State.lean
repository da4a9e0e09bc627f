import LinkOrder.Link.Error
import LinkOrder.LinkUnit

namespace LinkOrder

structure Policy where
  /-- External symbols are left to others, even where a unit defines them. -/
  allowExternal : Bool := false
  /-- Includes are starting points and stay included when they are reached. -/
  exportIncludes : Bool := false
  inheritanceOnly : Bool := false
  deriving DecidableEq, Repr

/-- The references of a unit that are still to be followed. -/
structure Cursor where
  pres : List Symbol
  deps : List Symbol
  deriving DecidableEq, Repr

/-- A unit, and its cursor once it is active. -/
structure Context where
  unit : LinkUnit
  cursor : Option Cursor := none
  deriving DecidableEq, Repr

namespace Context

def isActive (c : Context) : Bool := c.cursor.isSome

/-- Makes a unit active. Of one that is active already nothing changes, so the policy under which a unit
is first reached decides whether its dependencies are ever followed. -/
def activate (policy : Policy) (c : Context) : Context :=
  match c.cursor with
  | some _ => c
  | none =>
    { c with cursor := some ⟨c.unit.pres, if policy.inheritanceOnly then [] else c.unit.deps⟩ }

def pre? (c : Context) : Option Symbol := c.cursor.bind (·.pres.head?)

def dep? (c : Context) : Option Symbol := c.cursor.bind (·.deps.head?)

def dropPre (c : Context) : Context :=
  { c with cursor := c.cursor.map fun k ↦ { k with pres := k.pres.tail } }

def dropDep (c : Context) : Context :=
  { c with cursor := c.cursor.map fun k ↦ { k with deps := k.deps.tail } }

def remaining (c : Context) : Nat :=
  match c.cursor with
  | some k => k.pres.length + k.deps.length
  | none => c.unit.pres.length + c.unit.deps.length

theorem remaining_activate_le (policy : Policy) (c : Context) :
    (c.activate policy).remaining ≤ c.remaining := by
  cases hc : c.cursor with
  | some k => simp [activate, hc]
  | none => cases hp : policy.inheritanceOnly <;> simp [activate, remaining, hc, hp]

theorem remaining_dropPre_le (c : Context) : c.dropPre.remaining ≤ c.remaining := by
  unfold dropPre remaining
  cases c.cursor with
  | some k => simp
  | none => simp

theorem remaining_dropDep_le (c : Context) : c.dropDep.remaining ≤ c.remaining := by
  unfold dropDep remaining
  cases c.cursor with
  | some k => simp
  | none => simp

theorem remaining_dropPre_lt {c : Context} {p : Symbol} (h : c.pre? = some p) :
    c.dropPre.remaining < c.remaining := by
  unfold pre? at h
  unfold dropPre remaining
  cases hc : c.cursor with
  | none => simp [hc] at h
  | some k =>
    cases hk : k.pres with
    | nil => simp [hc, hk] at h
    | cons p l => simp [hk]

theorem remaining_dropDep_lt {c : Context} {d : Symbol} (h : c.dep? = some d) :
    c.dropDep.remaining < c.remaining := by
  unfold dep? at h
  unfold dropDep remaining
  cases hc : c.cursor with
  | none => simp [hc] at h
  | some k =>
    cases hk : k.deps with
    | nil => simp [hc, hk] at h
    | cons d l => simp [hk]

end Context

structure State where
  /-- The units in the order given, with their cursors. -/
  contexts : List Context
  extdefs : SymbolSet := ∅
  includes : SymbolSet := ∅
  /-- The symbols met and not resolved here. Without this set an undefined symbol is an error. -/
  unresolved : Option SymbolSet := none
  order : List LinkUnit := []
  /-- The units in progress, each a prerequisite of the next. Empty between walks. -/
  chain : List LinkUnit := []
  deriving DecidableEq

namespace State

def units (s : State) : List LinkUnit := s.contexts.map (·.unit)

def owner? (s : State) (d : Symbol) : Option LinkUnit := s.units.find? (d ∈ ·.defs)

def context? (s : State) (name : String) : Option Context := s.contexts.find? (·.unit.name = name)

def isVisited (s : State) (name : String) : Bool := s.order.any (·.name = name)

def defNames (s : State) : List Symbol := s.units.flatMap (·.defs)

def activeUnits (s : State) : List LinkUnit := (s.contexts.filter (·.isActive)).map (·.unit)

def contextOf? (s : State) (u : LinkUnit) : Option Context := s.contexts.find? (·.unit = u)

def update (s : State) (u : LinkUnit) (f : Context → Context) : State :=
  { s with contexts := s.contexts.map fun c ↦ if c.unit = u then f c else c }

def record (s : State) (name : Symbol) : State :=
  { s with unresolved := s.unresolved.map (·.insert name) }

def remaining (s : State) : Nat := s.contexts.foldr (·.remaining + ·) 0

theorem sum_update_le {u : LinkUnit} {f : Context → Context}
    (h : ∀ c, (f c).remaining ≤ c.remaining) (l : List Context) :
    (l.map fun c ↦ if c.unit = u then f c else c).foldr (·.remaining + ·) 0 ≤
      l.foldr (·.remaining + ·) 0 := by
  induction l with
  | nil => exact Nat.le_refl 0
  | cons c l ih =>
    have hc := h c
    simp only [List.map_cons, List.foldr_cons]
    split <;> omega

theorem sum_update_lt {u : LinkUnit} {f : Context → Context} {c : Context}
    (h : ∀ c, (f c).remaining ≤ c.remaining) (hlt : (f c).remaining < c.remaining)
    {l : List Context} (hc : l.find? (·.unit = u) = some c) :
    (l.map fun c ↦ if c.unit = u then f c else c).foldr (·.remaining + ·) 0 <
      l.foldr (·.remaining + ·) 0 := by
  induction l with
  | nil => cases hc
  | cons b l ih =>
    simp only [List.map_cons, List.foldr_cons]
    by_cases hb : b.unit = u
    · have hbc : b = c := by simpa [hb] using hc
      have hle := sum_update_le (u := u) h l
      rw [if_pos hb, hbc]
      omega
    · have hlt := ih (by simpa [hb] using hc)
      rw [if_neg hb]
      omega

theorem remaining_update_lt {s : State} {u : LinkUnit} {f : Context → Context} {c : Context}
    (h : ∀ c, (f c).remaining ≤ c.remaining) (hc : s.contextOf? u = some c)
    (hlt : (f c).remaining < c.remaining) : (s.update u f).remaining < s.remaining :=
  sum_update_lt h hlt hc

end State

end LinkOrder
