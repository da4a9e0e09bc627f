import LinkOrder.Text.Unprintable
import LinkOrder.Text.Utf8

namespace LinkOrder.Text

def escapeChar (c : Char) : List Char :=
  match c with
  | '\x00' => ['\\', '0']
  | '\t' => ['\\', 't']
  | '\n' => ['\\', 'n']
  | '\r' => ['\\', 'r']
  | '\x22' => ['\\', '\x22']
  | '\\' => ['\\', '\\']
  | c =>
    if isUnprintable c then ['\\', 'u', '\x7b'] ++ Nat.toDigits 16 c.toNat ++ ['\x7d'] else [c]

def quote (s : String) : String :=
  .ofList (['\x22'] ++ s.toList.flatMap escapeChar ++ ['\x22'])

def quoteName (l : Bytes) : String :=
  match decode l with
  | .ok s => s!"Ok({quote s})"
  | .error e => s!"Err({e.fields})"

end LinkOrder.Text
