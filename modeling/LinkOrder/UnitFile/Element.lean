import LinkOrder.LinkUnit
import LinkOrder.Markup.Entity
import LinkOrder.UnitFile.Error

namespace LinkOrder.UnitFile

open Text Markup

structure UnitHead where
  name : String
  modified : Option UInt64 := none
  size : Option UInt64 := none
  optimizedSize : Option UInt64 := none
  native : Bool := false
  deriving DecidableEq, Repr

def UnitHead.toUnit (h : UnitHead) : LinkUnit :=
  { name := h.name, native := h.native, modified := h.modified, size := h.size
    optimizedSize := h.optimizedSize }

inductive RefKind
  | defn
  | pre
  | dep
  deriving DecidableEq, Repr

def RefKind.element : RefKind → String
  | defn => "def"
  | pre => "pre"
  | dep => "dep"

def RefKind.ofName? (name : Bytes) : Option RefKind :=
  if name = encode "def" then some .defn
  else if name = encode "pre" then some .pre
  else if name = encode "dep" then some .dep
  else none

inductive Element
  | unit (head : UnitHead)
  | ref (kind : RefKind) (id : String)
  | imported (path : String)
  deriving DecidableEq, Repr

def text (a : Attribute) : Except Error String := do
  let value ← (unescape a.value).mapError fun e ↦ .markup (.entity e)
  (decode value).mapError .invalidUtf8

def digit? (c : Char) : Option UInt64 :=
  if c.isDigit then some (c.toNat - '0'.toNat).toUInt64 else none

/-- The number `n` with one more digit, unless that takes more than 64 bits. -/
def shiftIn? (n d : UInt64) : Option UInt64 :=
  -- neither the product nor the sum may wrap around
  if n ≤ 18446744073709551615 / 10 ∧ 10 * n ≤ 10 * n + d then some (10 * n + d) else none

def readDigit? (n : UInt64) (c : Char) : Option UInt64 := do shiftIn? n (← digit? c)

def digitsNumber? : List Char → Option UInt64
  | [] => none
  | l => l.foldlM readDigit? 0

/-- A number in decimal digits, with an optional plus sign before them. -/
def number? (s : String) : Option UInt64 :=
  match s.toList with
  | '+' :: l => digitsNumber? l
  | l => digitsNumber? l

def number (key : String) (a : Attribute) : Except Error UInt64 := do
  let value ← text a
  match number? value with
  | some n => return n
  | none => throw (.invalidNumber key value)

/-- The attributes of a unit read so far; a repeated attribute replaces the earlier one. -/
structure HeadDraft where
  name : Option String := none
  modified : Option UInt64 := none
  size : Option UInt64 := none
  optimizedSize : Option UInt64 := none
  native : Bool := false

def HeadDraft.put (h : HeadDraft) (a : Attribute) : Except Error HeadDraft :=
  if a.key = encode "name" then do return { h with name := some (← text a) }
  else if a.key = encode "mod" then do return { h with modified := some (← number "mod" a) }
  else if a.key = encode "size" then do return { h with size := some (← number "size" a) }
  else if a.key = encode "optimizedsize" then do
    return { h with optimizedSize := some (← number "optimizedsize" a) }
  else if a.key = encode "native" then .ok { h with native := a.value = encode "true" }
  else .ok h

def UnitHead.ofTag (t : Tag) : Except Error UnitHead := do
  let h ← t.attributeList.foldlM HeadDraft.put {}
  match h.name with
  | none => throw .unnamedUnit
  | some name =>
    return { name, modified := h.modified, size := h.size, optimizedSize := h.optimizedSize
             native := h.native }

def Element.ofTag? (t : Tag) : Option (Except Error Element) :=
  if t.name = encode "unit" then some do return .unit (← UnitHead.ofTag t)
  else if t.name = encode "import" then
    match t.get? "path" with
    | none => some (.error .importWithoutPath)
    | some a => some do return .imported (← text a)
  else
    (RefKind.ofName? t.name).map fun kind ↦
      match t.get? "id" with
      | none => .error (.refWithoutId kind.element)
      | some a => do return .ref kind (← text a)

end LinkOrder.UnitFile
