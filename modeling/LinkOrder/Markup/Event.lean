import LinkOrder.Markup.Delivery
import LinkOrder.Markup.Error

namespace LinkOrder.Markup

open Text

def byte (c : Char) : UInt8 := c.toNat.toUInt8

def isSpace (b : UInt8) : Bool :=
  b = byte ' ' || b = byte '\t' || b = byte '\r' || b = byte '\n'

structure Tag where
  name : Bytes
  attributes : Bytes
  deriving DecidableEq, Repr

def Tag.ofContent (content : Bytes) : Tag :=
  ⟨content.takeWhile (!isSpace ·), content.dropWhile (!isSpace ·)⟩

inductive Event
  | opened (tag : Tag)
  | empty (tag : Tag)
  | closed (name : Bytes)
  /-- A comment, character data, a document type or a processing instruction. -/
  | passed
  deriving DecidableEq, Repr

inductive Read
  | eof
  | failed (e : Error)
  | event (e : Event) (rest : Bytes)

def cut (l : Bytes) : Bytes × Bytes :=
  (l.takeWhile (· != byte '>'), (l.dropWhile (· != byte '>')).drop 1)

/-- As `cut`, but a `>` between quotes does not count; `quote` is the quote that is open. -/
def cutUnquoted (quote : Option UInt8) : Bytes → Bytes × Bytes
  | [] => ([], [])
  | b :: l =>
    match quote with
    | none =>
      if b = byte '>' then ([], l)
      else
        let (content, rest) := cutUnquoted (if b = byte '\x27' || b = byte '\x22' then some b else none) l
        (b :: content, rest)
    | some q =>
      let (content, rest) := cutUnquoted (if b = q then none else some q) l
      (b :: content, rest)

inductive BangKind
  | comment
  | cdata
  | doctype

namespace BangKind

def ofByte? (b : UInt8) : Option BangKind :=
  if b = byte '[' then some cdata
  else if b = byte '-' then some comment
  else if b = byte 'D' || b = byte 'd' then some doctype
  else none

def label : BangKind → String
  | comment => "Comment"
  | cdata => "CData"
  | doctype => "DOCTYPE"

/-- Whether a `>` ends the construct, given the bytes between the `!` and it, last first. For a document
type the bytes count from the start of the block, if that is later. -/
def endsAfter (seen : Bytes) : BangKind → Bool
  | comment => (encode "--").isPrefixOf seen && 4 ≤ seen.length
  | cdata => (encode "]]").isPrefixOf seen
  | doctype => seen.count (byte '<') == seen.count (byte '>')

def lower (b : UInt8) : UInt8 :=
  if byte 'A' ≤ b && b ≤ byte 'Z' then b + 32 else b

def admits (content : Bytes) : BangKind → Bool
  | comment => (encode "--").isPrefixOf content
  | cdata => (encode "[cdata[").isPrefixOf (content.map lower)
  | doctype => (encode "doctype").isPrefixOf (content.map lower)

def split? (kind : BangKind) (seen : Bytes) : Bytes → Option (Bytes × Bytes)
  | [] => none
  | b :: l =>
    if b = byte '>' && kind.endsAfter seen then some (seen.reverse, l)
    else kind.split? (b :: seen) l

/-- Looks for the end in one block after another, each by itself. -/
def splitBlocks? (kind : BangKind) : List Bytes → Option (Bytes × Bytes)
  | [] => none
  | block :: later =>
    match kind.split? [] block with
    | some (content, rest) => some (content, rest ++ later.flatten)
    | none => (kind.splitBlocks? later).map fun found ↦ (block ++ found.1, found.2)

def find? (d : Delivery) (l : Bytes) : BangKind → Option (Bytes × Bytes)
  | doctype => splitBlocks? doctype (d.divide l)
  | kind => kind.split? [] l

end BangKind

def readBang (d : Delivery) : Bytes → Read
  | [] => .failed (.unexpectedEof "Bang")
  | b :: l =>
    match BangKind.ofByte? b with
    | none => .failed (.unexpectedBang b)
    | some kind =>
      match kind.find? d (b :: l) with
      | none => .failed (.unexpectedEof kind.label)
      | some (content, rest) =>
        if kind.admits content then .event .passed rest else .failed (.unexpectedEof kind.label)

def readInstruction (l : Bytes) : Read :=
  let (content, rest) := cut l
  if 2 ≤ content.length && content.getLast? == some (byte '?') then .event .passed rest
  else .failed (.unexpectedEof "XmlDecl")

/-- White space in a closing tag, where a form feed counts as well. -/
def isClosingSpace (b : UInt8) : Bool := isSpace b || b = 0x0c

def closingName (content : Bytes) : Bytes :=
  if content.all isClosingSpace then content
  else (content.reverse.dropWhile isClosingSpace).reverse

def readClosing (l : Bytes) : Read :=
  let (content, rest) := cut l
  .event (.closed (closingName content)) rest

def readElement (l : Bytes) : Read :=
  let (content, rest) := cutUnquoted none l
  if content.getLast? == some (byte '/') then .event (.empty (.ofContent content.dropLast)) rest
  else .event (.opened (.ofContent content)) rest

def readMarkup (d : Delivery) : Bytes → Read
  | [] => .eof
  | b :: l =>
    if b = byte '!' then readBang d l
    else if b = byte '/' then readClosing l
    else if b = byte '?' then readInstruction l
    else readElement (b :: l)

/-- Reads up to the end of the next event of a text that arrives as `d` says; `input` is what is left of it. -/
def read (d : Delivery) (input : Bytes) : Read :=
  readMarkup d ((input.dropWhile (· != byte '<')).drop 1)

theorem length_dropWhile_le (p : UInt8 → Bool) (l : Bytes) : (l.dropWhile p).length ≤ l.length :=
  (List.dropWhile_sublist p).length_le

theorem length_cut_le (l : Bytes) : (cut l).2.length ≤ l.length := by
  have := length_dropWhile_le (· != byte '>') l
  simp only [cut, List.length_drop]
  omega

theorem length_cutUnquoted_le (quote : Option UInt8) (l : Bytes) :
    (cutUnquoted quote l).2.length ≤ l.length := by
  induction l generalizing quote with
  | nil => exact Nat.le_refl 0
  | cons b l ih =>
    unfold cutUnquoted
    split
    · split
      · exact Nat.le_succ _
      · exact Nat.le_succ_of_le (ih _)
    · exact Nat.le_succ_of_le (ih _)

theorem length_cutUnquoted_lt (b : UInt8) (l : Bytes) :
    (cutUnquoted none (b :: l)).2.length < (b :: l).length := by
  simp only [cutUnquoted]
  split
  · exact Nat.lt_succ_self _
  · exact Nat.lt_succ_of_le (length_cutUnquoted_le _ l)

theorem BangKind.length_split?_lt {kind : BangKind} {seen l content rest : Bytes}
    (h : kind.split? seen l = some (content, rest)) : rest.length < l.length := by
  induction l generalizing seen with
  | nil => cases h
  | cons b l ih =>
    unfold split? at h
    split at h
    · cases h
      exact Nat.lt_succ_self _
    · exact Nat.lt_succ_of_lt (ih h)

theorem BangKind.length_splitBlocks?_lt {kind : BangKind} {blocks : List Bytes} {content rest : Bytes}
    (h : kind.splitBlocks? blocks = some (content, rest)) : rest.length < blocks.flatten.length := by
  induction blocks generalizing content with
  | nil => cases h
  | cons block later ih =>
    rw [List.flatten_cons, List.length_append]
    unfold splitBlocks? at h
    split at h
    · next hs =>
      cases h
      rw [List.length_append]
      exact Nat.add_lt_add_right (length_split?_lt hs) _
    · obtain ⟨found, hf, he⟩ := Option.map_eq_some_iff.1 h
      cases he
      exact Nat.lt_add_left _ (ih hf)

theorem BangKind.length_find?_lt {kind : BangKind} {d : Delivery} {l content rest : Bytes}
    (h : kind.find? d l = some (content, rest)) : rest.length < l.length := by
  cases kind with
  | comment => exact length_split?_lt h
  | cdata => exact length_split?_lt h
  | doctype =>
    have hl := length_splitBlocks?_lt h
    rwa [d.flatten_divide] at hl

variable {d : Delivery}

theorem length_readBang_lt {l rest : Bytes} {e : Event} (h : readBang d l = .event e rest) :
    rest.length < l.length := by
  unfold readBang at h
  split at h
  · cases h
  · split at h
    · cases h
    · split at h
      · cases h
      · next hs =>
        split at h
        · cases h
          exact BangKind.length_find?_lt hs
        · cases h

theorem length_readMarkup_lt {l rest : Bytes} {e : Event} (h : readMarkup d l = .event e rest) :
    rest.length < l.length := by
  unfold readMarkup at h
  split at h
  · cases h
  · split at h
    · exact Nat.lt_succ_of_lt (length_readBang_lt h)
    · split at h
      · cases h
        exact Nat.lt_succ_of_le (length_cut_le _)
      · split at h
        · unfold readInstruction at h
          dsimp only at h
          split at h
          · cases h
            exact Nat.lt_succ_of_le (length_cut_le _)
          · cases h
        · unfold readElement at h
          dsimp only at h
          split at h
          · cases h
            exact length_cutUnquoted_lt _ _
          · cases h
            exact length_cutUnquoted_lt _ _

theorem length_read_lt {input rest : Bytes} {e : Event} (h : read d input = .event e rest) :
    rest.length < input.length := by
  have h₁ := length_readMarkup_lt h
  have h₂ := length_dropWhile_le (· != byte '<') input
  simp only [List.length_drop] at h₁
  omega

end LinkOrder.Markup
