import LinkOrder.File.Error
import LinkOrder.Text.Utf8

namespace LinkOrder

open Text

/-- After `room` bytes, writing fails. -/
structure Limit where
  room : Nat
  error : FileError
  deriving DecidableEq, Repr

structure Sink where
  taken : Bytes := []
  limit : Option Limit := none
  deriving DecidableEq, Repr

namespace Sink

/-- Writes all the bytes, or those that there is room for. -/
def put (s : Sink) (bytes : Bytes) : Option FileError × Sink :=
  match s.limit with
  | none => (none, { s with taken := s.taken ++ bytes })
  | some l =>
    if s.taken.length + bytes.length ≤ l.room then (none, { s with taken := s.taken ++ bytes })
    else (some l.error, { s with taken := (s.taken ++ bytes).take l.room })

def putAll (s : Sink) : List Bytes → Option FileError × Sink
  | [] => (none, s)
  | piece :: pieces =>
    match s.put piece with
    | (some e, s) => (some e, s)
    | (none, s) => s.putAll pieces

end Sink

/-- What becomes of pieces that go through a buffer of `size` bytes, in which `pending` waits: what is written
meanwhile, and what waits at the end. -/
def buffered (size : Nat) (pending : Bytes) : List Bytes → List Bytes × Bytes
  | [] => ([], pending)
  | piece :: pieces =>
    let (flushed, pending) :=
      if size < pending.length + piece.length then ([pending], []) else ([], pending)
    -- a piece that would fill the buffer does not go through it
    if size ≤ piece.length then
      let (written, last) := buffered size pending pieces
      (flushed ++ piece :: written, last)
    else
      let (written, last) := buffered size (pending ++ piece) pieces
      (flushed ++ written, last)

end LinkOrder
