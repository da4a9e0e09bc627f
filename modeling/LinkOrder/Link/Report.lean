import LinkOrder.File.Sink
import LinkOrder.Link.State
import LinkOrder.Markup.Error
import LinkOrder.Markup.Printer

namespace LinkOrder

inductive ReportError
  | io (e : FileError)
  | utf8 (e : Text.Utf8Error)
  | markup (e : Markup.Error)
  deriving Repr

namespace ReportError

def message : ReportError → String
  | io e => e.message
  | utf8 e => e.message
  | markup e => e.message

def causes : ReportError → List String
  | io e => [e.message]
  | utf8 e => [e.message]
  | markup e => e.message :: e.causes

end ReportError

def idLines (element : String) (ids : List Symbol) : List Markup.Line :=
  ids.map fun id ↦ .single element [("id", id)]

namespace LinkUnit

def reportAttributes (u : LinkUnit) : List (String × String) :=
  let known (key : String) (n : Option UInt64) : List (String × String) :=
    (n.map fun n ↦ (key, n.toNat.repr)).toList
  ("name", u.name) ::
    (known "mod" u.modified ++ known "size" u.size ++ known "optimizedsize" u.optimizedSize)

def reportLines (u : LinkUnit) : List Markup.Line :=
  .opening "script" u.reportAttributes ::
    (idLines "def" u.defs ++ idLines "pre" u.pres ++ idLines "dep" u.deps ++ [.closing "script"])

end LinkUnit

namespace State

def usedExternals (s : State) : SymbolSet :=
  s.extdefs.filter (· ∈ s.unresolved.getD ∅)

/-- The unresolved symbols that are not external. -/
def missing (s : State) : SymbolSet :=
  (s.unresolved.getD ∅).filter (· ∉ s.extdefs)

def reportLines (s : State) : List Markup.Line :=
  [.opening "report" [], .opening "scripts" []] ++ s.order.flatMap LinkUnit.reportLines ++
    [.closing "scripts", .opening "external-defs" []] ++
    idLines "ext" s.usedExternals.toList ++ idLines "missing" s.missing.toList ++
    [.closing "external-defs", .closing "report"]

def report (s : State) : String := Markup.print s.reportLines

def reportPieces (s : State) : List Text.Bytes :=
  (Markup.pieces true 0 s.reportLines).map Text.encode

/-- Writes the report into a space of `limit` bytes and says how many of them are left. -/
def reportWithin (s : State) (limit : Nat) : Except ReportError Nat :=
  match Sink.putAll { limit := some ⟨limit, .other "failed to write whole buffer"⟩ } s.reportPieces with
  | (some e, _) => .error (.markup (.io e))
  | (none, sink) => .ok (limit - sink.taken.length)

end State

end LinkOrder
