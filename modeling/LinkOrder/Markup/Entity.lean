import LinkOrder.Markup.Attribute

namespace LinkOrder.Markup

open Text

def named? (name : Bytes) : Option Char :=
  if name = encode "lt" then some '<'
  else if name = encode "gt" then some '>'
  else if name = encode "amp" then some '&'
  else if name = encode "apos" then some '\x27'
  else if name = encode "quot" then some '\x22'
  else none

def decimalDigit? (b : UInt8) : Option Nat :=
  if byte '0' ≤ b && b ≤ byte '9' then some (b - byte '0').toNat else none

def hexDigit? (b : UInt8) : Option Nat :=
  if byte '0' ≤ b && b ≤ byte '9' then some (b - byte '0').toNat
  else if byte 'a' ≤ b && b ≤ byte 'f' then some ((b - byte 'a').toNat + 10)
  else if byte 'A' ≤ b && b ≤ byte 'F' then some ((b - byte 'A').toNat + 10)
  else none

def digitsValue (base : Nat) (digit? : UInt8 → Option Nat) (acc : Nat) : Bytes → Except UInt8 Nat
  | [] => .ok acc
  | b :: l =>
    match digit? b with
    | some d => digitsValue base digit? (acc * base + d) l
    | none => .error b

/-- The number written after `#`. At most six hexadecimal or seven decimal digits are read. -/
def characterNumber (l : Bytes) : Except EntityError Nat :=
  match l with
  | [] => .ok 0
  | b :: digits =>
    if b = byte 'x' then
      if 6 < digits.length then .error .hexTooLong
      else (digitsValue 16 hexDigit? 0 digits).mapError .badHexDigit
    else if 7 < (b :: digits).length then .error .decimalTooLong
    else (digitsValue 10 decimalDigit? 0 (b :: digits)).mapError .badDecimalDigit

def character (start stop : Nat) (name : Bytes) : Except EntityError Char :=
  match named? name with
  | some c => .ok c
  | none =>
    match name with
    | [] => .error (.unrecognised (start + 1) stop [])
    | b :: l =>
      if b = byte '#' then do
        let n ← characterNumber l
        if n = 0 then throw (.null start stop)
        if h : n.isValidChar then return .ofNatAux n h else throw (.notScalar n)
      else .error (.unrecognised (start + 1) stop (b :: l))

/-- Decodes `l`, the part of a value of `total` bytes that begins at offset `pos`. -/
def unescapeFrom (total pos : Nat) (l : Bytes) : Except EntityError Bytes :=
  match l with
  | [] => .ok []
  | b :: t =>
    if b = byte '&' then
      let name := t.takeWhile fun c ↦ c != byte '&' && c != byte ';'
      match h : t.dropWhile fun c ↦ c != byte '&' && c != byte ';' with
      | [] => .error (.unterminated pos total)
      | e :: rest =>
        have : rest.length < t.length := by
          have := length_dropWhile_le (fun c ↦ c != byte '&' && c != byte ';') t
          simp only [h, List.length_cons] at this
          omega
        if e = byte ';' then do
          let c ← character pos (pos + 1 + name.length) name
          return String.utf8EncodeChar c ++ (← unescapeFrom total (pos + 2 + name.length) rest)
        else .error (.unterminated pos total)
    else do
      return b :: (← unescapeFrom total (pos + 1) t)
termination_by l.length

def unescape (value : Bytes) : Except EntityError Bytes :=
  unescapeFrom value.length 0 value

end LinkOrder.Markup
