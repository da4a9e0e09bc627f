namespace LinkOrder.Text

abbrev Bytes := List UInt8

def encode (s : String) : Bytes :=
  s.toList.flatMap String.utf8EncodeChar

/-- The bytes from `validUpTo` on are not UTF-8: `broken` of them begin no character, or, if that is
`none`, the input ends inside a character. -/
structure Utf8Error where
  validUpTo : Nat
  broken : Option Nat
  deriving DecidableEq, Repr

namespace Utf8Error

def message (e : Utf8Error) : String :=
  match e.broken with
  | some n => s!"invalid utf-8 sequence of {n} bytes from index {e.validUpTo}"
  | none => s!"incomplete utf-8 byte sequence from index {e.validUpTo}"

def fields (e : Utf8Error) : String :=
  let len := match e.broken with
    | some n => s!"Some({n})"
    | none => "None"
  s!"Utf8Error \x7b valid_up_to: {e.validUpTo}, error_len: {len} \x7d"

end Utf8Error

/-- How a character's first byte goes on: the number of bytes that follow it and the range of the first
of those. -/
def continuation (b : UInt8) : Option (Nat × UInt8 × UInt8) :=
  if b < 0x80 then some (0, 0x80, 0xbf)
  else if b < 0xc2 then none
  else if b < 0xe0 then some (1, 0x80, 0xbf)
  else if b = 0xe0 then some (2, 0xa0, 0xbf)
  else if b = 0xed then some (2, 0x80, 0x9f)
  else if b < 0xf0 then some (2, 0x80, 0xbf)
  else if b = 0xf0 then some (3, 0x90, 0xbf)
  else if b < 0xf4 then some (3, 0x80, 0xbf)
  else if b = 0xf4 then some (3, 0x80, 0x8f)
  else none

inductive Front
  /-- A character, and the number of bytes after its first. -/
  | char (c : Char) (more : Nat)
  /-- This many bytes that begin no character. -/
  | broken (n : Nat)
  /-- The input ends inside a character. -/
  | cut

def payload (b : UInt8) : Nat := b.toNat % 64

def isContinuation (b : UInt8) : Bool := 0x80 ≤ b && b ≤ 0xbf

def front (a : UInt8) (l : Bytes) : Front :=
  match continuation a with
  | none => .broken 1
  | some (0, _) => .char (.ofNat a.toNat) 0
  | some (n, lo, hi) =>
    match l with
    | [] => .cut
    | b :: l =>
      if b < lo || hi < b then .broken 1
      else if n = 1 then .char (.ofNat (a.toNat % 32 * 64 + payload b)) 1
      else match l with
        | [] => .cut
        | c :: l =>
          if !isContinuation c then .broken 2
          else if n = 2 then .char (.ofNat ((a.toNat % 16 * 64 + payload b) * 64 + payload c)) 2
          else match l with
            | [] => .cut
            | d :: _ =>
              if !isContinuation d then .broken 3
              else .char (.ofNat (((a.toNat % 8 * 64 + payload b) * 64 + payload c) * 64 + payload d)) 3

def decodeFrom (pos : Nat) : Bytes → Except Utf8Error (List Char)
  | [] => .ok []
  | a :: l =>
    match front a l with
    | .char c n => (decodeFrom (pos + n + 1) (l.drop n)).map (c :: ·)
    | .broken n => .error ⟨pos, some n⟩
    | .cut => .error ⟨pos, none⟩
termination_by l => l.length
decreasing_by simp only [List.length_drop, List.length_cons]; omega

def decode (l : Bytes) : Except Utf8Error String :=
  (decodeFrom 0 l).map String.ofList

/-- Decodes with U+FFFD in place of each run of bytes that begins no character. -/
def decodeLossy : Bytes → List Char
  | [] => []
  | a :: l =>
    match front a l with
    | .char c n => c :: decodeLossy (l.drop n)
    | .broken n => '\ufffd' :: decodeLossy (l.drop (n - 1))
    | .cut => ['\ufffd']
termination_by l => l.length
decreasing_by all_goals simp only [List.length_drop, List.length_cons]; omega

def latin1 (b : UInt8) : Char := .ofNat b.toNat

end LinkOrder.Text
