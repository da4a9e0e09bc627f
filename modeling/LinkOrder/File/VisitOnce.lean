import LinkOrder.File.Error
import LinkOrder.File.Path

namespace LinkOrder

structure VisitOnce where
  visited : List Path := []

inductive Opened (α : Type)
  /-- The file at its canonical path, opened for the first time. -/
  | first (path : Path) (file : α)
  | again
  deriving DecidableEq, Repr

namespace VisitOnce

variable {α : Type}

def contains (v : VisitOnce) (p : Path) : Bool := v.visited.any (·.components = p.components)

/-- Opens the file of a path unless it was opened before. What cannot be opened is not recorded. -/
def request (v : VisitOnce) (canonicalize : Path → Except FileError Path)
    (openFile : Path → Except FileError α) (p : Path) : Except FileError (Opened α) × VisitOnce :=
  match canonicalize p with
  | .error e => (.error e, v)
  | .ok c =>
    if v.contains c then (.ok .again, v)
    else
      match openFile c with
      | .error e => (.error e, v)
      | .ok file => (.ok (.first c file), ⟨v.visited ++ [c]⟩)

end VisitOnce

end LinkOrder
