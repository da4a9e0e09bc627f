import LinkOrder.File.Error
import LinkOrder.File.Path
import LinkOrder.File.Sink

namespace LinkOrder

inductive Entry
  | file (content : Text.Bytes)
  | dir
  deriving DecidableEq, Repr

/-- The entries of a file tree by the names that lead to them from the root, which is a directory, and the
directory at which relative paths begin. -/
structure FileTree where
  entries : List (List String × Entry) := []
  current : List String := []
  deriving DecidableEq, Repr

/-- What the places of a file tree allow: why no file can be opened there, and how much one can take. -/
structure Disk where
  refused : List String → Option FileError := fun _ ↦ none
  limit : List String → Option Limit := fun _ ↦ none

namespace FileTree

def get? (t : FileTree) (names : List String) : Option Entry :=
  if names = [] then some .dir else t.entries.lookup names

def locate (t : FileTree) (names : List String) : List (List Char) → Except FileError (List String × Entry)
  | [] =>
    match t.get? names with
    | none => .error .notFound
    | some entry => .ok (names, entry)
  | part :: parts =>
    match t.get? names with
    | none => .error .notFound
    | some (.file _) => .error .notDirectory
    | some .dir =>
      if Path.isIdle part then t.locate names parts
      else if part = ['.', '.'] then t.locate names.dropLast parts
      else if 255 < (String.ofList part).utf8ByteSize then .error .nameTooLong
      else t.locate (names ++ [String.ofList part]) parts

def start (t : FileTree) (p : Path) : List String := if p.isAbsolute then [] else t.current

def checkText (p : Path) : Except FileError Unit :=
  if p.text.toList.contains '\x00' then .error .nulInName
  else if p.text = "" then .error .notFound
  else .ok ()

def absolute (names : List String) : Path :=
  ⟨.ofList ('/' :: Path.joinSlash (names.map (·.toList)))⟩

def pathSize : Nat := 4095

def slashBefore (parts : List (List Char)) : List (List Char) :=
  match parts.dropWhile Path.isIdle with
  | [] => if parts = [] then [] else [[]]
  | part :: _ => if part = ['.', '.'] then [[]] else []

/-- The names that lead from the root to where the parts of a path lead from the entry at `names`. The full
path of every name on the way is looked up, with a slash after it where it has to be a directory. -/
def resolve (t : FileTree) (names : List String) : List (List Char) → Except FileError (List String)
  | [] => (t.locate names []).map (·.1)
  | part :: parts =>
    if Path.isIdle part then t.resolve names parts
    else if part = ['.', '.'] then t.resolve names.dropLast parts
    else
      let here := names ++ [String.ofList part]
      if pathSize < (absolute here).text.utf8ByteSize + (slashBefore parts).length then
        .error .nameTooLong
      else
        match t.locate names (part :: slashBefore parts) with
        | .error e => .error e
        | .ok _ => t.resolve here parts

def canonicalize (t : FileTree) (p : Path) : Except FileError Path :=
  match checkText p with
  | .error e => .error e
  | .ok _ => (t.resolve (t.start p) (Path.splitSlash p.text.toList)).map absolute

def checkPath (p : Path) : Except FileError Unit := do
  checkText p
  if pathSize < p.text.utf8ByteSize then throw .nameTooLong

def openEntry (t : FileTree) (p : Path) : Except FileError Entry := do
  checkPath p
  return (← t.locate (t.start p) (Path.splitSlash p.text.toList)).2

def set (t : FileTree) (names : List String) (entry : Entry) : FileTree :=
  { t with entries := t.entries.filter (·.1 ≠ names) ++ [(names, entry)] }

/-- Where a file of that path would be written. A path that ends in a slash, a dot or two dots leads to a
directory or nowhere. -/
def destination (t : FileTree) (p : Path) : Except FileError (List String) := do
  checkPath p
  let parts := (Path.splitSlash p.text.toList).reverse
  match parts.dropWhile (· = []) with
  | [] => throw .isDirectory
  | last :: before =>
    match ← t.locate (t.start p) before.reverse with
    | (_, .file _) => throw .notDirectory
    | (names, .dir) =>
      if last = ['.'] ∨ last = ['.', '.'] ∨ parts.head? = some [] then throw .isDirectory
      if 255 < (String.ofList last).utf8ByteSize then throw .nameTooLong
      let target := names ++ [String.ofList last]
      match t.get? target with
      | some .dir => throw .isDirectory
      | _ => return target

/-- Opens a file to be written: it is made, or emptied. -/
def create (t : FileTree) (disk : Disk) (p : Path) : Except FileError (List String × FileTree) := do
  let names ← t.destination p
  match disk.refused names with
  | some e => throw e
  | none => return (names, t.set names (.file []))

end FileTree

end LinkOrder
