import LinkOrder.Link.State

namespace LinkOrder

/-- Checks the definitions `rest` of `u` in order, those before them being `done`. -/
def checkDefs (extdefs : SymbolSet) (earlier : List LinkUnit) (u : LinkUnit) (done : List Symbol) :
    List Symbol → Except LinkError Unit
  | [] => .ok ()
  | d :: rest =>
    match earlier.find? (d ∈ ·.defs) with
    | some v => .error (.multipleDefinitions d u.name v.name)
    | none =>
      if d ∈ done then .error (.multipleDefinitions d u.name u.name)
      else
        match done.head? with
        | none => checkDefs extdefs earlier u [d] rest
        | some first =>
          if d ∈ extdefs ∧ first ∉ extdefs then .error (.partialExterns u.name first d)
          else if d ∉ extdefs ∧ first ∈ extdefs then .error (.partialExterns u.name d first)
          else checkDefs extdefs earlier u (done ++ [d]) rest

def checkUnit (extdefs : SymbolSet) (earlier : List LinkUnit) (u : LinkUnit) :
    Except LinkError Unit :=
  if earlier.any (·.name = u.name) then .error (.duplicateSymbol u.name)
  else checkDefs extdefs earlier u [] u.defs

def checkUnits (extdefs : SymbolSet) (earlier : List LinkUnit) :
    List LinkUnit → Except LinkError Unit
  | [] => .ok ()
  | u :: rest => do
    checkUnit extdefs earlier u
    checkUnits extdefs (earlier ++ [u]) rest

def State.build (units : List LinkUnit) (extdefs includes : SymbolSet)
    (unresolved : Option SymbolSet) : Except LinkError State := do
  checkUnits extdefs [] units
  return { contexts := units.map ({ unit := · }), extdefs, includes, unresolved }

end LinkOrder
