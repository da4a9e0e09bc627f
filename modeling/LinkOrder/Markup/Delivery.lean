import LinkOrder.Text.Utf8

namespace LinkOrder.Markup

open Text

inductive Delivery
  | whole
  /-- A text of `total` bytes in blocks of `size` bytes, the last of them perhaps shorter. -/
  | blocks (size total : Nat)
  deriving DecidableEq, Repr

def fill (size room : Nat) : Bytes → Bytes × List Bytes
  | [] => ([], [])
  | b :: l =>
    match room with
    | 0 =>
      let (block, later) := fill size (size - 1) l
      ([], (b :: block) :: later)
    | room + 1 =>
      let (block, later) := fill size room l
      (b :: block, later)

/-- The end of a text, as it arrives: the rest of the present block, then the blocks after it. -/
def Delivery.divide (rest : Bytes) : Delivery → List Bytes
  | whole => [rest]
  | blocks size total =>
    let (block, later) := fill size (size - (total - rest.length) % size) rest
    block :: later

theorem fill_append_flatten (size room : Nat) (l : Bytes) :
    (fill size room l).1 ++ (fill size room l).2.flatten = l := by
  induction l generalizing room with
  | nil => rfl
  | cons b l ih =>
    cases room with
    | zero => exact congrArg (b :: ·) (ih (size - 1))
    | succ room => exact congrArg (b :: ·) (ih room)

theorem Delivery.flatten_divide (d : Delivery) (rest : Bytes) : (d.divide rest).flatten = rest := by
  cases d with
  | whole => exact List.append_nil rest
  | blocks size total => exact fill_append_flatten size _ rest

end LinkOrder.Markup
