import LinkOrder.UnitFile.Reader

namespace LinkOrder.UnitFile

/-- What a unit file holds: its units and the paths it imports, each in document order. -/
structure Contents where
  units : List LinkUnit := []
  imports : List String := []
  deriving DecidableEq, Repr

def addRef (u : LinkUnit) (kind : RefKind) (id : String) : LinkUnit :=
  match kind with
  | .defn => { u with defs := u.defs ++ [id] }
  | .pre => { u with pres := u.pres ++ [id] }
  | .dep => { u with deps := u.deps ++ [id] }

structure Collected where
  contents : Contents := {}
  current : Option LinkUnit := none

def Collected.put (c : Collected) : Event → Collected
  | .imported path => { c with contents.imports := c.contents.imports ++ [path] }
  | .unitStart head => { c with current := some head.toUnit }
  | .ref kind id => { c with current := c.current.map (addRef · kind id) }
  | .unitEnd => ⟨{ c.contents with units := c.contents.units ++ c.current.toList }, none⟩
  | .eof => c

def Contents.ofEvents (l : List Event) : Contents :=
  (l.foldl Collected.put {}).contents

def read (document : Markup.Document) : Except Error Contents :=
  let reading := Reader.run ⟨document, .prolog⟩
  reading.result.map fun _ ↦ .ofEvents reading.events

theorem eq_ok_of_toOption {ε α : Type} {x : Except ε α} {v : α} (h : x.toOption = some v) : x = .ok v := by
  cases x with
  | error e => cases h
  | ok v' => exact congrArg Except.ok (Option.some.inj h)

end LinkOrder.UnitFile
