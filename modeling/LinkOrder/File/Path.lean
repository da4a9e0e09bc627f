namespace LinkOrder

structure Path where
  text : String
  deriving DecidableEq, Repr, Inhabited

inductive Component
  | root
  | here
  | up
  | name (s : List Char)
  deriving DecidableEq, Repr

namespace Path

def splitSlash : List Char → List (List Char)
  | [] => [[]]
  | c :: l =>
    if c = '/' then [] :: splitSlash l
    else
      match splitSlash l with
      | [] => [[c]]
      | part :: parts => (c :: part) :: parts

def joinSlash : List (List Char) → List Char
  | [] => []
  | [part] => part
  | part :: parts => part ++ '/' :: joinSlash parts

inductive Head
  | relative
  | root
  | here
  deriving DecidableEq, Repr

def split (p : Path) : Head × List (List Char) :=
  match splitSlash p.text.toList with
  | [] :: part :: parts => (.root, part :: parts)
  | ['.'] :: parts => (.here, parts)
  | parts => (.relative, parts)

/-- Parts that name nothing: between two slashes, after the last one, and single dots. -/
def isIdle (part : List Char) : Bool := part = [] || part = ['.']

def Head.components : Head → List Component
  | .relative => []
  | .root => [.root]
  | .here => [.here]

def component (part : List Char) : Component :=
  if part = ['.', '.'] then .up else .name part

def components (p : Path) : List Component :=
  p.split.1.components ++ (p.split.2.filter (!isIdle ·)).map component

def isAbsolute (p : Path) : Bool := p.text.toList.head? == some '/'

def unsplit : Head → List (List Char) → Path
  | .relative, parts => ⟨.ofList (joinSlash parts)⟩
  | .root, parts => ⟨.ofList ('/' :: joinSlash parts)⟩
  | .here, [] => ⟨"."⟩
  | .here, parts => ⟨.ofList ('.' :: '/' :: joinSlash parts)⟩

def dropIdle (parts : List (List Char)) : List (List Char) :=
  (parts.reverse.dropWhile isIdle).reverse

def parent? (p : Path) : Option Path :=
  let (head, parts) := p.split
  match dropIdle parts, head with
  | [], .here => some ⟨""⟩
  | [], _ => none
  | parts, head => some (unsplit head (dropIdle parts.dropLast))

/-- Follows `q` from `p`; an absolute `q` is followed from the root. -/
def join (p q : Path) : Path :=
  if q.isAbsolute then q
  else if p.text.toList.getLast?.all (· = '/') then ⟨p.text ++ q.text⟩
  else ⟨p.text ++ "/" ++ q.text⟩

/-- The path that the file `p` means by importing `q`. -/
def importing (p q : Path) : Path :=
  match p.parent? with
  | some dir => dir.join q
  | none => q

end Path

end LinkOrder
