import LinkOrder.Markup.Event

namespace LinkOrder.Markup

open Text

structure Attribute where
  key : Bytes
  value : Bytes
  deriving DecidableEq, Repr

def skipSpace (l : Bytes) : Bytes := l.dropWhile isSpace

def isKeyByte (b : UInt8) : Bool := b != byte '=' && !isSpace b

/-- Reads the value of `key`. An unquoted value is dropped up to the next white space, and a value
without its closing quote ends the attributes. -/
def readValue (key : Bytes) : Bytes → Option (Option Attribute × Bytes)
  | [] => none
  | q :: t =>
    if q = byte '\x27' || q = byte '\x22' then
      match t.dropWhile (· != q) with
      | [] => none
      | _ :: rest => some (some ⟨key, t.takeWhile (· != q)⟩, rest)
    else some (none, t.dropWhile (!isSpace ·))

/-- Reads one attribute, or drops one malformed one. A key is at least one byte long, even if that is an
equals sign, and a key that no equals sign follows is dropped. -/
def readAttribute (l : Bytes) : Option (Option Attribute × Bytes) :=
  match skipSpace l with
  | [] => none
  | b :: t =>
    match skipSpace (t.dropWhile isKeyByte) with
    | [] => none
    | e :: rest =>
      if e = byte '=' then readValue (b :: t.takeWhile isKeyByte) (skipSpace rest)
      else some (none, e :: rest)

theorem length_readValue_lt {key l rest : Bytes} {a : Option Attribute}
    (h : readValue key l = some (a, rest)) : rest.length < l.length := by
  revert h
  fun_cases readValue key l
  · simp
  · simp
  · next q t _ _ _ hd =>
    have := length_dropWhile_le (· != q) t
    simp only [hd, List.length_cons] at this
    rintro ⟨⟩
    simp only [List.length_cons]
    omega
  · rintro ⟨⟩
    exact Nat.lt_succ_of_le (length_dropWhile_le _ _)

theorem length_readAttribute_lt {l rest : Bytes} {a : Option Attribute}
    (h : readAttribute l = some (a, rest)) : rest.length < l.length := by
  unfold readAttribute at h
  have h₁ := length_dropWhile_le isSpace l
  split at h
  · cases h
  · next b t ht =>
    simp only [skipSpace] at ht
    simp only [ht, List.length_cons] at h₁
    have h₂ := length_dropWhile_le isKeyByte t
    have h₃ := length_dropWhile_le isSpace (t.dropWhile isKeyByte)
    split at h
    · cases h
    · next e r hr =>
      simp only [skipSpace] at hr
      simp only [hr, List.length_cons] at h₃
      split at h
      · have h₄ := length_readValue_lt h
        have h₅ := length_dropWhile_le isSpace r
        simp only [skipSpace] at h₄
        omega
      · cases h
        simp only [List.length_cons]
        omega

def attributesOf (l : Bytes) : List Attribute :=
  match h : readAttribute l with
  | none => []
  | some (a, rest) =>
    have := length_readAttribute_lt h
    a.toList ++ attributesOf rest
termination_by l.length

theorem attributesOf_of_none {l : Bytes} (h : readAttribute l = none) : attributesOf l = [] := by
  rw [attributesOf]
  split
  · rfl
  · next heq =>
    rw [h] at heq
    cases heq

theorem attributesOf_of_some {l rest : Bytes} {a : Option Attribute}
    (h : readAttribute l = some (a, rest)) : attributesOf l = a.toList ++ attributesOf rest := by
  rw [attributesOf]
  split <;> rename_i heq <;> rw [h] at heq <;> cases heq
  rfl

def Tag.attributeList (t : Tag) : List Attribute := attributesOf t.attributes

def Tag.get? (t : Tag) (key : String) : Option Attribute :=
  t.attributeList.find? (·.key == encode key)

end LinkOrder.Markup
