import LinkOrder.File.VisitOnce
import Mathlib.Data.List.Nodup

namespace LinkOrder

variable {α : Type}

/-- A call to open a path, with where paths lead and what comes of opening a file at the time. -/
structure OpenCall (α : Type) where
  path : Path
  canonicalize : Path → Except FileError Path
  openFile : Path → Except FileError α

namespace VisitOnce

variable {v : VisitOnce} {call : OpenCall α} {calls calls' : List (OpenCall α)} {c : Path} {e : FileError} {i : Nat}

def serve (v : VisitOnce) (call : OpenCall α) : Except FileError (Opened α) × VisitOnce :=
  v.request call.canonicalize call.openFile call.path

def results (v : VisitOnce) : List (OpenCall α) → List (Except FileError (Opened α))
  | [] => []
  | call :: calls => (v.serve call).1 :: results (v.serve call).2 calls

def afterAll (v : VisitOnce) (calls : List (OpenCall α)) : VisitOnce :=
  calls.foldl (fun v call ↦ (v.serve call).2) v

def givenPath? : Except FileError (Opened α) → Option Path
  | .ok (.first c _) => some c
  | _ => none

/-- One of the calls gave out the file at `c`. -/
def GivenOut (results : List (Except FileError (Opened α))) (c : Path) : Prop :=
  ∃ c' file, .ok (.first c' file) ∈ results ∧ c'.components = c.components

theorem contains_iff : v.contains c = true ↔ c.components ∈ v.visited.map Path.components := by
  simp [contains]

theorem serve_cases (v : VisitOnce) (call : OpenCall α) :
    (∃ e, call.canonicalize call.path = .error e ∧ v.serve call = (.error e, v)) ∨
      ∃ c, call.canonicalize call.path = .ok c ∧
        (v.contains c = true ∧ v.serve call = (.ok .again, v) ∨
          v.contains c = false ∧ ((∃ e, call.openFile c = .error e ∧ v.serve call = (.error e, v)) ∨
            ∃ file, call.openFile c = .ok file ∧ v.serve call = (.ok (.first c file), ⟨v.visited ++ [c]⟩))) := by
  unfold serve request
  cases hc : call.canonicalize call.path with
  | error e => exact .inl ⟨e, rfl, rfl⟩
  | ok c =>
    refine .inr ⟨c, rfl, ?_⟩
    cases hv : v.contains c with
    | true => exact .inl ⟨rfl, by simp [hv]⟩
    | false => cases ho : call.openFile c <;> simp [hv, ho]

theorem visited_serve (v : VisitOnce) (call : OpenCall α) :
    (v.serve call).2.visited = v.visited ++ (givenPath? (v.serve call).1).toList := by
  obtain ⟨e, -, h⟩ | ⟨c, -, ⟨-, h⟩ | ⟨-, ⟨e, -, h⟩ | ⟨file, -, h⟩⟩⟩ := serve_cases v call <;> simp [h, givenPath?]

theorem serve_of_failed (h : (v.serve call).1 = .error e) : (v.serve call).2 = v := by
  obtain ⟨e', -, hs⟩ | ⟨c, -, ⟨-, hs⟩ | ⟨-, ⟨e', -, hs⟩ | ⟨file, -, hs⟩⟩⟩ := serve_cases v call
  · rw [hs]
  · rw [hs]
  · rw [hs]
  · rw [hs] at h
    cases h

theorem serve_of_error (hc : call.canonicalize call.path = .error e) : (v.serve call).1 = .error e := by
  simp [serve, request, hc]

theorem serve_eq_again_iff (hc : call.canonicalize call.path = .ok c) :
    (v.serve call).1 = .ok .again ↔ v.contains c = true := by
  unfold serve request
  cases hv : v.contains c with
  | true => simp [hc, hv]
  | false => cases ho : call.openFile c <;> simp [hc, hv, ho]

theorem serve_of_new (hc : call.canonicalize call.path = .ok c) (hv : v.contains c = false) :
    (v.serve call).1 = (call.openFile c).map (.first c) := by
  cases ho : call.openFile c <;> simp [serve, request, hc, hv, ho, Except.map]

theorem nodup_serve (call : OpenCall α) (h : (v.visited.map Path.components).Nodup) :
    ((v.serve call).2.visited.map Path.components).Nodup := by
  obtain ⟨e, -, hs⟩ | ⟨c, -, ⟨-, hs⟩ | ⟨hv, ⟨e, -, hs⟩ | ⟨file, -, hs⟩⟩⟩ := serve_cases v call
  · rwa [hs]
  · rwa [hs]
  · rwa [hs]
  · have hnew : c.components ∉ v.visited.map Path.components := fun hmem ↦ by
      rw [contains_iff.2 hmem] at hv
      cases hv
    rw [hs, List.map_append, List.map_singleton, ← List.concat_eq_append]
    exact List.Nodup.concat hnew h

theorem take_results (v : VisitOnce) (calls : List (OpenCall α)) (n : Nat) :
    (v.results calls).take n = v.results (calls.take n) := by
  induction calls generalizing v n with
  | nil => simp [results]
  | cons call calls ih => cases n <;> simp [results, ih]

theorem visited_afterAll (v : VisitOnce) (calls : List (OpenCall α)) :
    (v.afterAll calls).visited = v.visited ++ (v.results calls).filterMap givenPath? := by
  induction calls generalizing v with
  | nil => simp [afterAll, results]
  | cons call calls ih =>
    have hrest := ih (v.serve call).2
    rw [visited_serve, List.append_assoc] at hrest
    rw [results, List.filterMap_cons]
    cases hp : givenPath? (v.serve call).1 <;> simpa [hp, afterAll] using hrest

theorem nodup_afterAll (calls : List (OpenCall α)) (h : (v.visited.map Path.components).Nodup) :
    ((v.afterAll calls).visited.map Path.components).Nodup := by
  induction calls generalizing v with
  | nil => exact h
  | cons call calls ih => exact ih (nodup_serve call h)

theorem contains_afterAll (calls : List (OpenCall α)) :
    (afterAll {} calls).contains c = true ↔ GivenOut (results {} calls) c := by
  rw [contains_iff, visited_afterAll]
  simp only [List.nil_append, List.mem_map, List.mem_filterMap, GivenOut]
  constructor
  · rintro ⟨c', ⟨r, hr, hpath⟩, heq⟩
    unfold givenPath? at hpath
    split at hpath
    · cases hpath
      exact ⟨_, _, hr, heq⟩
    · cases hpath
  · rintro ⟨c', file, hr, heq⟩
    exact ⟨c', ⟨_, hr, rfl⟩, heq⟩

/-- What a call of a run returns is told by what was returned before it. -/
theorem getElem?_results (hi : calls[i]? = some call) :
    (v.results calls)[i]? = some ((v.afterAll (calls.take i)).serve call).1 := by
  induction calls generalizing v i with
  | nil => cases hi
  | cons first calls ih =>
    cases i with
    | zero =>
      cases hi
      rfl
    | succ i => exact ih hi

theorem afterAll_take_succ (hi : calls[i]? = some call) :
    v.afterAll (calls.take (i + 1)) = ((v.afterAll (calls.take i)).serve call).2 := by
  rw [List.take_add_one, hi]
  simp [afterAll]

theorem results_eraseIdx (hi : calls[i]? = some call) (h : ((v.afterAll (calls.take i)).serve call).1 = .error e) :
    v.results (calls.eraseIdx i) = (v.results calls).eraseIdx i := by
  induction calls generalizing v i with
  | nil => cases hi
  | cons first calls ih =>
    cases i with
    | zero =>
      obtain rfl := Option.some_inj.1 hi
      have hkept : (v.serve first).2 = v := serve_of_failed h
      simp [results, hkept]
    | succ i => exact congrArg _ (ih hi h)

/-- A call gives out the file that its path leads to unless a call before it gave out that file, and a call that fails
changes nothing for those after it. As many files are recorded as were given out, no two of them the same. -/
theorem each_file_given_out_once (calls : List (OpenCall α)) :
    (∀ i call, calls[i]? = some call → ∃ r, (results {} calls)[i]? = some r ∧
      (∀ c, call.canonicalize call.path = .ok c →
        (r = .ok .again ↔ GivenOut ((results {} calls).take i) c) ∧
        (¬GivenOut ((results {} calls).take i) c → r = (call.openFile c).map (.first c))) ∧
      (∀ e, call.canonicalize call.path = .error e → r = .error e) ∧
      ∀ e, r = .error e → afterAll {} (calls.take (i + 1)) = afterAll {} (calls.take i) ∧
        results {} (calls.eraseIdx i) = (results {} calls).eraseIdx i) ∧
    ∀ n, (afterAll {} (calls.take n)).visited.length =
        ((results {} calls).take n).countP (fun r ↦ (givenPath? r).isSome) ∧
      ((afterAll {} (calls.take n)).visited.map Path.components).Nodup := by
  refine ⟨fun i call hi ↦ ?_, fun n ↦ ⟨?_, nodup_afterAll _ .nil⟩⟩
  · refine ⟨_, getElem?_results hi, fun c hc ↦ ?_, fun e hc ↦ serve_of_error hc, fun e he ↦ ?_⟩
    · rw [take_results, ← contains_afterAll, Bool.not_eq_true]
      exact ⟨serve_eq_again_iff hc, serve_of_new hc⟩
    · exact ⟨(afterAll_take_succ hi).trans (serve_of_failed he), results_eraseIdx hi he⟩
  · rw [visited_afterAll, take_results, List.nil_append, List.length_filterMap_eq_countP]

namespace Reopening

def openAs (path : String) (openFile : Path → Except FileError Path) : OpenCall Path := ⟨⟨path⟩, .ok, openFile⟩

def attempts : List (OpenCall Path) :=
  [openAs "lib//units" fun _ ↦ .error .notFound, openAs "lib/./units" .ok, openAs "lib/units/" .ok]

theorem second_call_gives_out :
    attempts[1]? = some (openAs "lib/./units" .ok) ∧
      (results {} attempts)[1]? = some (.ok (.first ⟨"lib/./units"⟩ ⟨"lib/./units"⟩)) ∧
      (results {} attempts)[2]? = some (.ok .again) ∧
      results {} (attempts.eraseIdx 0) = (results {} attempts).eraseIdx 0 ∧
      (afterAll {} (attempts.take 3)).visited.length = 1 := by
  obtain ⟨hcalls, hlength⟩ := each_file_given_out_once attempts
  have hfailed : (results {} attempts).take 1 = [.error .notFound] := rfl
  obtain ⟨r₀, hr₀, -, -, hkept⟩ := hcalls 0 _ rfl
  obtain ⟨r₁, hr₁, hfirst, -⟩ := hcalls 1 _ rfl
  obtain ⟨r₂, hr₂, hagain, -⟩ := hcalls 2 _ rfl
  have hnew : ¬GivenOut ((results {} attempts).take 1) ⟨"lib/./units"⟩ := by
    rw [hfailed]
    rintro ⟨c, file, hmem, -⟩
    cases List.mem_singleton.1 hmem
  have hopened : r₁ = .ok (.first ⟨"lib/./units"⟩ ⟨"lib/./units"⟩) := (hfirst _ rfl).2 hnew
  rw [hopened] at hr₁
  have hgiven : GivenOut ((results {} attempts).take 2) ⟨"lib/units/"⟩ :=
    ⟨⟨"lib/./units"⟩, ⟨"lib/./units"⟩, by simp [List.take_add_one, hr₁], by decide⟩
  refine ⟨rfl, hr₁, (hagain _ rfl).1.2 hgiven ▸ hr₂, (hkept .notFound ?_).2, (hlength 3).1⟩
  exact (Option.some_inj.1 hr₀).symm

end Reopening

end VisitOnce

end LinkOrder
