import LinkOrder.Markup.Event

namespace LinkOrder.Markup

open Text

/-- The events of a text in order, and the fault at which reading it stopped for good, if any. -/
structure Document where
  events : List Event
  fault : Option Error := none
  deriving Repr

/-- The document of a text that arrives as `d` says; `input` is what is left of it. -/
def Document.arriving (d : Delivery) (input : Bytes) : Document :=
  match h : read d input with
  | .eof => ⟨[], none⟩
  | .failed e => ⟨[], some e⟩
  | .event e rest =>
    have := length_read_lt h
    let later := arriving d rest
    ⟨e :: later.events, later.fault⟩
termination_by input.length

namespace Document

variable {d : Delivery} {input rest : Bytes}

theorem arriving_of_eof (h : read d input = .eof) : arriving d input = ⟨[], none⟩ := by
  rw [arriving]
  split <;> rename_i heq <;> rw [h] at heq <;> cases heq

theorem arriving_of_failed {e : Error} (h : read d input = .failed e) :
    arriving d input = ⟨[], some e⟩ := by
  rw [arriving]
  split <;> rename_i heq <;> rw [h] at heq <;> cases heq
  rfl

theorem arriving_of_event {e : Event} (h : read d input = .event e rest) :
    arriving d input = ⟨e :: (arriving d rest).events, (arriving d rest).fault⟩ := by
  rw [arriving]
  split <;> rename_i heq <;> rw [h] at heq <;> cases heq
  rfl

def ofBytes (input : Bytes) : Document := arriving .whole input

def fileBlock : Nat := 8192

def ofFile (content : Bytes) : Document := arriving (.blocks fileBlock content.length) content

def unreadable (e : FileError) : Document := ⟨[], some (.io e)⟩

end Document

end LinkOrder.Markup
