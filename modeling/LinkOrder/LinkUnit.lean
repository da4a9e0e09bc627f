import LinkOrder.SymbolSet

namespace LinkOrder

/-- A unit of code: the symbols it defines, the symbols that have to be linked before it, and the other
symbols it uses. A native unit is provided by the environment and never linked. -/
structure LinkUnit where
  name : String
  defs : List Symbol := []
  pres : List Symbol := []
  deps : List Symbol := []
  native : Bool := false
  modified : Option UInt64 := none
  size : Option UInt64 := none
  optimizedSize : Option UInt64 := none
  deriving DecidableEq, Repr, Inhabited

namespace LinkUnit

def describe (u : LinkUnit) : String := s!"unit `{u.name}`"

def bare (u : LinkUnit) : LinkUnit :=
  { name := u.name, defs := u.defs, pres := u.pres, deps := u.deps }

end LinkUnit

end LinkOrder
