import LinkOrder.SymbolSet

namespace LinkOrder

inductive LinkError
  | duplicateSymbol (name : String)
  | multipleDefinitions (defn : Symbol) (unit previous : String)
  | partialExterns (unit : String) (defn external : Symbol)
  | undefinedSymbol (name : Symbol)
  /-- A prerequisite of `unit` closes the cycle `path`. -/
  | circularReference (unit : String) (path : List String)
  deriving DecidableEq, Repr

def LinkError.message : LinkError → String
  | duplicateSymbol name => s!"duplicate symbol `{name}`"
  | multipleDefinitions defn unit previous =>
    s!"multiple definitions of `{defn}` (in `{unit}`, previously defined in `{previous}`)"
  | partialExterns unit defn external =>
    s!"`{unit}` defines `{defn}`, but its definition `{external}` is external; " ++
      "a unit must be entirely external or not at all"
  | undefinedSymbol name => s!"undefined symbol `{name}`"
  | circularReference unit path =>
    let via := if path.isEmpty then "" else ": " ++ " -> ".intercalate path
    s!"prerequisites of `{unit}` contain a circular reference" ++ via

end LinkOrder
