import LinkOrder.File.Error
import LinkOrder.Text.Quoted

namespace LinkOrder.Markup

open Text

/-- Why an attribute value has no decoded form. Offsets are byte positions in the raw value. -/
inductive EntityError
  | unterminated (start stop : Nat)
  | unrecognised (start stop : Nat) (name : Bytes)
  | null (start stop : Nat)
  | hexTooLong
  | decimalTooLong
  | badHexDigit (b : UInt8)
  | badDecimalDigit (b : UInt8)
  | notScalar (n : Nat)
  deriving DecidableEq, Repr

def entityName (l : Bytes) : String :=
  match decode l with
  | .ok s => s!"Ok({quote s})"
  | .error e =>
    let bytes := ", ".intercalate (l.map fun b ↦ b.toNat.repr)
    s!"Err(FromUtf8Error \x7b bytes: [{bytes}], error: {e.fields} \x7d)"

def EntityError.message : EntityError → String
  | unterminated i j => s!"Error while escaping character at range {i}..{j}: Cannot find ';' after '&'"
  | unrecognised i j name =>
    s!"Error while escaping character at range {i}..{j}: Unrecognized escape symbol: {entityName name}"
  | null i j => s!"Error while escaping character at range {i}..{j}: Null character entity not allowed"
  | hexTooLong => "Cannot convert hexadecimal to utf8"
  | decimalTooLong => "Cannot convert decimal to utf8"
  | badHexDigit b => s!"'{latin1 b}' is not a valid hexadecimal character"
  | badDecimalDigit b => s!"'{latin1 b}' is not a valid decimal character"
  | notScalar n => s!"'{n}' is not a valid codepoint"

inductive Error
  | io (e : FileError)
  | utf8 (e : Utf8Error)
  | unexpectedEof (reading : String)
  | mismatchedEnd (expected found : String)
  | unexpectedToken (text : String)
  | unexpectedBang (b : UInt8)
  | textNotFound
  | entity (e : EntityError)
  deriving Repr

namespace Error

def message : Error → String
  | io e => s!"I/O error: {e.message}"
  | utf8 e => s!"UTF8 error: {e.message}"
  | unexpectedEof reading => s!"Unexpected EOF during reading {reading}"
  | mismatchedEnd expected found => s!"Expecting </{expected}> found </{found}>"
  | unexpectedToken text => s!"Unexpected token '{text}'"
  | unexpectedBang b =>
    "Only Comment (`--`), CDATA (`[CDATA[`) and DOCTYPE (`DOCTYPE`) nodes can start with a '!', " ++
      s!"but symbol `{latin1 b}` found"
  | textNotFound => "Cannot read text, expecting Event::Text"
  | entity e => e.message

def causes : Error → List String
  | io e => [e.message]
  | utf8 e => [e.message]
  | entity e => [e.message]
  | _ => []

/-- Faults of markup carry no identity: no two of them are ever taken for the same. -/
instance : BEq Error := ⟨fun _ _ ↦ false⟩

end Error

end LinkOrder.Markup
