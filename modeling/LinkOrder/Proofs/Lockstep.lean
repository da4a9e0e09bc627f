import LinkOrder.UnitFile.Contents

namespace LinkOrder.UnitFile

section View

variable {ε α β γ δ : Type} {f : α → β} {g : γ → δ} {x x' : Except ε α}

theorem none_or_some_of_map_eq {o o' : Option α} (h : o'.map f = o.map f) :
    (o = none ∧ o' = none) ∨ ∃ v v', o = some v ∧ o' = some v' ∧ f v' = f v := by
  cases o with
  | none => exact .inl ⟨rfl, Option.map_eq_none_iff.1 h⟩
  | some v =>
    obtain ⟨v', rfl, hview⟩ := Option.map_eq_some_iff.1 h
    exact .inr ⟨v, v', rfl, rfl, hview⟩

theorem error_or_ok_of_map_eq (h : x'.map f = x.map f) :
    (∃ e, x = .error e ∧ x' = .error e) ∨ ∃ v v', x = .ok v ∧ x' = .ok v' ∧ f v' = f v := by
  cases x with
  | error e =>
    cases x' with
    | error e' =>
      cases h
      exact .inl ⟨e, rfl, rfl⟩
    | ok v' => cases h
  | ok v =>
    cases x' with
    | error e' => cases h
    | ok v' => exact .inr ⟨v, v', rfl, rfl, Except.ok.inj h⟩

theorem bind_map_eq {k k' : α → Except ε γ} (h : x'.map f = x.map f)
    (hk : ∀ v v', f v' = f v → (k' v').map g = (k v).map g) : (x'.bind k').map g = (x.bind k).map g := by
  rcases error_or_ok_of_map_eq h with ⟨e, rfl, rfl⟩ | ⟨v, v', rfl, rfl, hview⟩
  · rfl
  · exact hk v v' hview

end View

/-- Readers related by `R` are told events of the same view, and are still related unless that was an error. -/
structure InStep (view : Event → Event) (R : Reader → Reader → Prop) : Prop where
  view_eq_eof : ∀ event, view event = .eof ↔ event = .eof
  told : ∀ r r', R r r' → r'.next.1.map view = r.next.1.map view
  next : ∀ r r' event, R r r' → r.next.1 = .ok event → R r.next.2 r'.next.2

namespace InStep

variable {view : Event → Event} {R : Reader → Reader → Prop} {r r' : Reader} {document document' : Markup.Document}

theorem run (h : InStep view R) (hr : R r r') :
    r'.run.result = r.run.result ∧ r'.run.events.map view = r.run.events.map view := by
  generalize hweight : r.weight = n
  induction n using Nat.strongRecOn generalizing r r' with
  | ind n ih =>
    have htold := h.told r r' hr
    have hkept := h.next r r'
    cases hnext : r.next with
    | mk result r₁ =>
      cases hnext' : r'.next with
      | mk result' r₁' =>
        rw [hnext, hnext'] at htold hkept
        rcases error_or_ok_of_map_eq htold with ⟨e, rfl, rfl⟩ | ⟨event, event', rfl, rfl, hview⟩
        · rw [Reader.run_of_error hnext, Reader.run_of_error hnext']
          exact ⟨rfl, rfl⟩
        · by_cases heof : event = .eof
          · have heof' : event' = .eof :=
              (h.view_eq_eof event').1 (hview.trans ((h.view_eq_eof event).2 heof))
            subst heof heof'
            rw [Reader.run_of_eof hnext, Reader.run_of_eof hnext']
            exact ⟨rfl, rfl⟩
          · have heof' : event' ≠ .eof := by
              intro heq
              exact heof ((h.view_eq_eof event).1 (hview.symm.trans ((h.view_eq_eof event').2 heq)))
            have hlt : r₁.weight < n := hweight ▸ Reader.weight_next_lt hnext heof
            obtain ⟨hresult, hevents⟩ := ih _ hlt (hkept event hr rfl) rfl
            rw [Reader.run_of_event hnext heof, Reader.run_of_event hnext' heof']
            exact ⟨hresult, by rw [List.map_cons, List.map_cons, hview, hevents]⟩

theorem read_map (h : InStep view R) (hr : R ⟨document, .prolog⟩ ⟨document', .prolog⟩)
    (contentsView : Contents → Contents)
    (hview : ∀ events, contentsView (.ofEvents events) = .ofEvents (events.map view)) :
    (read document').map contentsView = (read document).map contentsView := by
  obtain ⟨hresult, hevents⟩ := h.run hr
  unfold read
  simp only [hresult]
  cases (Reader.run ⟨document, .prolog⟩).result with
  | error e => rfl
  | ok _ => simp only [Except.map, hview, hevents]

theorem read_eq (h : InStep id R) (hr : R ⟨document, .prolog⟩ ⟨document', .prolog⟩) :
    read document' = read document := by
  have hmap := h.read_map hr id fun events ↦ by rw [List.map_id, id]
  rwa [Except.map_id] at hmap

end InStep

end LinkOrder.UnitFile
