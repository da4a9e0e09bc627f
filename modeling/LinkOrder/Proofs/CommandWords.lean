import LinkOrder.CommandLine
import Mathlib.Data.List.Perm.Basic

namespace LinkOrder.CommandLine

def emitWord : Emit → String
  | .order => "order"
  | .dot => "dot"

/-- What a command line sets, apart from its inputs. -/
inductive Setting
  | output (path : String)
  | emit (form : Emit)
  | external (name : Symbol)
  | included (name : Symbol)
  | start (name : Symbol)
  | allowExternal
  | exportIncludes
  | inheritanceOnly
  | strict
  | report (path : String)
  deriving DecidableEq

namespace Setting

def word : Setting → String
  | output path => "--output=" ++ path
  | emit .order => "--emit=order"
  | emit .dot => "--emit=dot"
  | external name => "--extern=" ++ name
  | included name => "--include=" ++ name
  | start name => "--start=" ++ name
  | allowExternal => "--allow-external"
  | exportIncludes => "--export-includes"
  | inheritanceOnly => "--inheritance-only"
  | strict => "--strict"
  | report path => "--report=" ++ path

def start? : Setting → Option Symbol
  | start name => some name
  | _ => none

def option : Setting → Opt × Option String
  | output path => (.output, some path)
  | emit form => (.emit, some (emitWord form))
  | external name => (.externs, some name)
  | included name => (.includes, some name)
  | start name => (.start, some name)
  | allowExternal => (.allowExternal, none)
  | exportIncludes => (.exportIncludes, none)
  | inheritanceOnly => (.inheritanceOnly, none)
  | strict => (.strict, none)
  | report path => (.report, some path)

theorem isSome_option (s : Setting) : s.option.2.isSome = s.option.1.argument?.isSome := by cases s <;> rfl

theorem toList_word (s : Setting) :
    s.word.toList = '-' :: '-' :: (s.option.1.long.toList ++ (s.option.2.elim "" ("=" ++ ·)).toList) := by
  cases s with
  | emit form => cases form <;> simp [word, option, emitWord, Opt.long]
  | _ => simp [word, option, Opt.long]

end Setting

variable {o : Opt} {value : Option String} {settings : List Setting} {words : Words} {rest : List String} {job : Job}
  {emit : List Emit} {externs includes : List Symbol}

def ifSet {α : Type} (isSet : Bool) (a : α) : List α := if isSet then [a] else []

theorem map_ifSet {α β : Type} (f : α → β) (isSet : Bool) (a : α) : (ifSet isSet a).map f = ifSet isSet (f a) := by
  cases isSet <;> rfl

theorem filter_ifSet {α : Type} (p : α → Bool) (isSet : Bool) (a : α) :
    (ifSet isSet a).filter p = if p a then ifSet isSet a else [] := by
  cases isSet <;> cases hp : p a <;> simp [ifSet, hp]

theorem ifSet_eq_nil_iff {α : Type} {isSet : Bool} {a : α} : ifSet isSet a = [] ↔ isSet = false := by
  cases isSet <;> simp [ifSet]

theorem length_ifSet_le {α : Type} (isSet : Bool) (a : α) : (ifSet isSet a).length ≤ 1 := by
  cases isSet <;> simp [ifSet]

/-- The settings of a job, with its sets listed somehow. -/
def settingsOf (job : Job) (emit : List Emit) (externs includes : List Symbol) : List Setting :=
  List.flatten
    [[.output job.output.text], emit.map .emit, externs.map .external, includes.map .included,
      (job.start.getD []).map .start, ifSet job.policy.allowExternal .allowExternal,
      ifSet job.policy.exportIncludes .exportIncludes, ifSet job.policy.inheritanceOnly .inheritanceOnly,
      ifSet job.strict .strict, job.report.toList.map fun path ↦ .report path.text]

/-- The settings are those of the job, in any order in which the symbols to start from follow each other as in the job. A
symbol of its sets may stand more than once, and the form of the output may be left out if it is the order. -/
structure Arranges (job : Job) (emit : List Emit) (externs includes : List Symbol) (settings : List Setting) :
    Prop where
  form : emit = [job.emit] ∨ job.emit = .order ∧ emit = []
  mem_externs (name : Symbol) : name ∈ externs ↔ name ∈ job.externs
  mem_includes (name : Symbol) : name ∈ includes ↔ name ∈ job.includes
  perm : settings.Perm (settingsOf job emit externs includes)
  start : settings.filterMap Setting.start? = job.start.getD []

namespace Opt

theorem ofName?_long (o : Opt) : ofName? o.long = some o := by cases o <;> rfl

theorem ne_equals_of_mem_long (o : Opt) : ∀ c ∈ o.long.toList, decide (c ≠ '=') = true := by
  have hnot : '=' ∉ o.long.toList := by cases o <;> decide
  intro c hc
  exact decide_eq_true fun heq ↦ hnot (heq ▸ hc)

theorem long_ne_nil (o : Opt) : o.long.toList ≠ [] := by cases o <;> decide

end Opt

theorem readLong_long (h : value.isSome = o.argument?.isSome) :
    readLong (o.long.toList ++ (value.elim "" ("=" ++ ·)).toList) = .ok { options := [(o, value)] } := by
  unfold readLong
  rw [List.takeWhile_append_of_pos o.ne_equals_of_mem_long, List.dropWhile_append_of_pos o.ne_equals_of_mem_long]
  cases ha : o.argument? with
  | none =>
    rw [ha, Option.isSome_none, Option.isSome_eq_false_iff, Option.isNone_iff_eq_none] at h
    simp [o.ofName?_long, ha, h]
  | some name =>
    rw [ha] at h
    obtain ⟨text, rfl⟩ := Option.isSome_iff_exists.1 h
    simp [o.ofName?_long, ha]

theorem scan_word (words : Words) (s : Setting) (rest : List String) :
    scan words (s.word :: rest) = scan { words with options := words.options ++ [s.option] } rest := by
  have hread := readLong_long s.isSome_option
  have hword := s.toList_word
  obtain ⟨c, l, hl⟩ := List.exists_cons_of_ne_nil s.option.1.long_ne_nil
  rw [hl, List.cons_append] at hread hword
  rw [scan, hword]
  simp [hread]

theorem scan_words (words : Words) (settings : List Setting) (rest : List String) :
    scan words (settings.map Setting.word ++ rest) =
      scan { words with options := words.options ++ settings.map Setting.option } rest := by
  induction settings generalizing words with
  | nil => simp
  | cons s settings ih =>
    rw [List.map_cons, List.cons_append, scan_word, ih]
    simp

theorem scan_dashes : scan words ("--" :: rest) = .ok { words with free := words.free ++ rest } := rfl

/-- What an option is given by the settings of a job, once for each time that it stands. -/
def valuesOf (job : Job) (emit : List Emit) (externs includes : List Symbol) : Opt → List (Option String)
  | .output => [some job.output.text]
  | .emit => emit.map fun form ↦ some (emitWord form)
  | .externs => externs.map some
  | .includes => includes.map some
  | .start => (job.start.getD []).map some
  | .allowExternal => ifSet job.policy.allowExternal none
  | .exportIncludes => ifSet job.policy.exportIncludes none
  | .inheritanceOnly => ifSet job.policy.inheritanceOnly none
  | .strict => ifSet job.strict none
  | .report => job.report.toList.map fun path ↦ some path.text
  | .help => []

theorem filter_settingsOf (job : Job) (emit : List Emit) (externs includes : List Symbol) (o : Opt) :
    ((settingsOf job emit externs includes).map Setting.option).filter (·.1 = o) =
      (valuesOf job emit externs includes o).map (o, ·) := by
  cases o <;> simp [settingsOf, valuesOf, Setting.option, map_ifSet, filter_ifSet, List.filter_map, Function.comp_def]

theorem length_valuesOf_le (hemit : emit.length ≤ 1) (ho : o.isRepeatable = false) :
    (valuesOf job emit externs includes o).length ≤ 1 := by
  cases o with
  | externs | includes | start => cases ho
  | output | help => simp [valuesOf]
  | emit => simpa [valuesOf] using hemit
  | report => cases hr : job.report <;> simp [valuesOf, hr]
  | allowExternal | exportIncludes | inheritanceOnly | strict => exact length_ifSet_le _ _

def wordsOf (settings : List Setting) (free : List String) : Words := ⟨settings.map Setting.option, free⟩

theorem arguments_start (settings : List Setting) (free : List String) :
    (wordsOf settings free).arguments .start = settings.filterMap Setting.start? := by
  have hstart (s : Setting) : (if s.option.1 = .start then s.option.2 else none) = s.start? := by cases s <;> rfl
  simp [wordsOf, Words.arguments, List.filterMap_map, hstart]

namespace Arranges

variable (h : Arranges job emit externs includes settings) (free : List String)
include h

theorem length_emit_le : emit.length ≤ 1 := by
  rcases h.form with rfl | ⟨-, rfl⟩ <;> simp

theorem filter_perm (o : Opt) :
    ((settings.map Setting.option).filter (·.1 = o)).Perm ((valuesOf job emit externs includes o).map (o, ·)) := by
  rw [← filter_settingsOf]
  exact (h.perm.map _).filter _

theorem countP_eq (o : Opt) :
    (settings.map Setting.option).countP (·.1 = o) = (valuesOf job emit externs includes o).length := by
  rw [List.countP_eq_length_filter, (h.filter_perm o).length_eq, List.length_map]

theorem isGiven_iff (o : Opt) :
    (wordsOf settings free).isGiven o = true ↔ valuesOf job emit externs includes o ≠ [] := by
  rw [← List.length_pos_iff, ← h.countP_eq, List.countP_pos_iff, Words.isGiven, List.any_eq_true]
  rfl

theorem isGiven_flag {isSet : Bool} (ho : valuesOf job emit externs includes o = ifSet isSet none) :
    (wordsOf settings free).isGiven o = isSet := by
  rw [Bool.eq_iff_iff, h.isGiven_iff, ho, ne_eq, ifSet_eq_nil_iff, Bool.not_eq_false]

theorem arguments_perm (o : Opt) :
    ((wordsOf settings free).arguments o).Perm ((valuesOf job emit externs includes o).filterMap id) := by
  have hperm := (h.filter_perm o).filterMap (·.2)
  rw [List.filterMap_filter, List.filterMap_map] at hperm
  simpa [wordsOf, Words.arguments] using hperm

theorem argument?_eq (ho : o.isRepeatable = false) :
    (wordsOf settings free).argument? o = ((valuesOf job emit externs includes o).filterMap id).head? := by
  have hperm := h.arguments_perm free o
  have hlength : ((valuesOf job emit externs includes o).filterMap id).length ≤ 1 :=
    Nat.le_trans (List.length_filterMap_le _ _) (length_valuesOf_le h.length_emit_le ho)
  unfold Words.argument?
  generalize (valuesOf job emit externs includes o).filterMap id = l at hperm hlength
  rcases l with _ | ⟨text, _ | ⟨text', l⟩⟩
  · rw [List.perm_nil.1 hperm]
  · rw [List.perm_singleton.1 hperm]
  · simp at hlength

theorem ofList_arguments {l : List String} {symbols : SymbolSet}
    (ho : valuesOf job emit externs includes o = l.map some) (hl : ∀ name, name ∈ l ↔ name ∈ symbols) :
    SymbolSet.ofList ((wordsOf settings free).arguments o) = symbols := by
  have hperm := h.arguments_perm free o
  rw [ho] at hperm
  apply SymbolSet.ext
  intro name
  rw [SymbolSet.mem_ofList, hperm.mem_iff, ← hl]
  simp

theorem checkRepeated_eq_ok : checkRepeated (wordsOf settings free) = .ok () := by
  have hfind : Opt.all.find?
      (fun o ↦ !o.isRepeatable && 1 < (wordsOf settings free).options.countP (·.1 = o)) = none := by
    rw [List.find?_eq_none]
    intro o _
    rw [wordsOf, h.countP_eq]
    cases ho : o.isRepeatable with
    | true => simp
    | false => simpa using length_valuesOf_le h.length_emit_le ho
  unfold checkRepeated
  simp only [hfind]

theorem emitOf?_argument? : emitOf? ((wordsOf settings free).argument? .emit) = some job.emit := by
  have hemit : (wordsOf settings free).argument? .emit = (emit.map emitWord).head? := by
    rw [h.argument?_eq free rfl]
    simp [valuesOf, List.filterMap_map]
  rw [hemit]
  rcases h.form with rfl | ⟨hform, rfl⟩
  · cases job.emit <;> rfl
  · rw [hform]
    rfl

theorem toCommand_eq (hinputs : job.inputs ≠ []) (hstart : job.start ≠ some []) :
    (wordsOf settings (job.inputs.map (·.text))).toCommand = .ok (.link job) := by
  have hhelp : (wordsOf settings (job.inputs.map (·.text))).isGiven .help = false :=
    h.isGiven_flag _ (rfl : [] = ifSet false none)
  have houtput : (wordsOf settings (job.inputs.map (·.text))).argument? .output = some job.output.text :=
    h.argument?_eq _ rfl
  have hreport : (wordsOf settings (job.inputs.map (·.text))).argument? .report = job.report.map (·.text) := by
    rw [h.argument?_eq _ rfl]
    cases hr : job.report <;> simp [valuesOf, hr]
  have hbegin : (if job.start.getD [] = [] then none else some (job.start.getD [])) = job.start := by
    cases hs : job.start with
    | none => rfl
    | some l => simpa [hs] using hstart
  unfold Words.toCommand
  rw [hhelp, h.emitOf?_argument?, houtput, hreport, arguments_start, h.start,
    h.ofList_arguments _ (o := .externs) rfl h.mem_externs, h.ofList_arguments _ (o := .includes) rfl h.mem_includes,
    h.isGiven_flag _ (o := .allowExternal) rfl, h.isGiven_flag _ (o := .exportIncludes) rfl,
    h.isGiven_flag _ (o := .inheritanceOnly) rfl, h.isGiven_flag _ (o := .strict) rfl]
  simp [wordsOf, hinputs, hbegin, Function.comp_def]

end Arranges

/-- The command line of a job is read back as that job, in whichever order its settings are arranged. -/
theorem command_line_reads_back (hinputs : job.inputs ≠ []) (hstart : job.start ≠ some [])
    (h : Arranges job emit externs includes settings) :
    parse (settings.map Setting.word ++ "--" :: job.inputs.map (·.text)) = .ok (.link job) := by
  have hscan : scan {} (settings.map Setting.word ++ "--" :: job.inputs.map (·.text)) =
      .ok (wordsOf settings (job.inputs.map (·.text))) := by
    rw [scan_words, scan_dashes]
    rfl
  unfold parse
  rw [hscan]
  dsimp only [bind, Except.bind]
  rw [h.checkRepeated_eq_ok]
  exact h.toCommand_eq hinputs hstart

namespace Odd

def oddJob : Job :=
  { inputs := [⟨"-h"⟩, ⟨"--"⟩, ⟨""⟩]
    output := ⟨"a=b"⟩
    emit := .dot
    externs := .ofList ["x", "--strict"]
    includes := .ofList [""]
    start := some ["z=", "a", "z="]
    policy := { exportIncludes := true }
    report := some ⟨"=r"⟩ }

def arranged : List Setting :=
  [.start "z=", .external "--strict", .report "=r", .start "a", .external "x", .included "", .exportIncludes,
    .output "a=b", .external "--strict", .start "z=", .emit .dot]

theorem arranges : Arranges oddJob [.dot] ["--strict", "x", "--strict"] [""] arranged where
  form := .inl rfl
  mem_externs name := by
    simp only [oddJob, SymbolSet.mem_ofList, List.mem_cons, List.not_mem_nil, or_false]
    tauto
  mem_includes name := by simp [oddJob]
  perm := by decide
  start := rfl

theorem odd_line_reads_back :
    oddJob.inputs ≠ [] ∧ oddJob.start ≠ some [] ∧ Arranges oddJob [.dot] ["--strict", "x", "--strict"] [""] arranged ∧
      parse ["--start=z=", "--extern=--strict", "--report==r", "--start=a", "--extern=x", "--include=",
        "--export-includes", "--output=a=b", "--extern=--strict", "--start=z=", "--emit=dot", "--", "-h", "--", ""] =
        .ok (.link oddJob) :=
  ⟨by decide, by decide, arranges, command_line_reads_back (by decide) (by decide) arranges⟩

end Odd

end LinkOrder.CommandLine
