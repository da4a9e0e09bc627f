import LinkOrder.Job.Basic

namespace LinkOrder.CommandLine

inductive Opt
  | output
  | emit
  | externs
  | includes
  | start
  | allowExternal
  | exportIncludes
  | inheritanceOnly
  | strict
  | report
  | help
  deriving DecidableEq, Repr

namespace Opt

def all : List Opt :=
  [output, emit, externs, includes, start, allowExternal, exportIncludes, inheritanceOnly, strict,
    report, help]

def long : Opt → String
  | output => "output"
  | emit => "emit"
  | externs => "extern"
  | includes => "include"
  | start => "start"
  | allowExternal => "allow-external"
  | exportIncludes => "export-includes"
  | inheritanceOnly => "inheritance-only"
  | strict => "strict"
  | report => "report"
  | help => "help"

def short? : Opt → Option Char
  | output => some 'o'
  | externs => some 'x'
  | includes => some 'i'
  | start => some 's'
  | report => some 'r'
  | help => some 'h'
  | _ => none

def argument? : Opt → Option String
  | output => some "OUTPUT"
  | emit => some "order|dot"
  | externs => some "SYMBOL"
  | includes => some "SYMBOL"
  | start => some "DEF"
  | report => some "FILE"
  | _ => none

def isRepeatable : Opt → Bool
  | externs | includes | start => true
  | _ => false

def description : Opt → String
  | output => "set output file name"
  | emit => "set output type"
  | externs => "symbol defined outside of link"
  | includes => "symbol that must be linked"
  | start => "begin traversal at definition"
  | allowExternal => "do not link external symbols"
  | exportIncludes => "begin traversal at includes"
  | inheritanceOnly => "follow only prerequisites"
  | strict => "fail on undefined symbols"
  | report => "write link report"
  | help => "print this help menu"

def ofShort? (c : Char) : Option Opt := all.find? (·.short? = some c)

/-- The option of a name after two dashes. A name of one character is that of a short option. -/
def ofName? (name : String) : Option Opt :=
  match name.toList with
  | [c] => ofShort? c
  | _ => all.find? (·.long = name)

end Opt

inductive Fault
  | unrecognised (name : String)
  | unexpectedArgument (name : String)
  | missingArgument (name : String)
  | repeated (name : String)
  | missingOption (name : String)
  deriving DecidableEq, Repr

def Fault.message : Fault → String
  | unrecognised name => s!"Unrecognized option: '{name}'"
  | unexpectedArgument name => s!"Option '{name}' does not take an argument"
  | missingArgument name => s!"Argument to option '{name}' missing"
  | repeated name => s!"Option '{name}' given more than once"
  | missingOption name => s!"Required option '{name}' missing"

/-- The options given, with their arguments, and the other words, each in order. -/
structure Words where
  options : List (Opt × Option String) := []
  free : List String := []
  deriving DecidableEq, Repr

namespace Words

def isGiven (w : Words) (o : Opt) : Bool := w.options.any (·.1 = o)

def arguments (w : Words) (o : Opt) : List String :=
  w.options.filterMap fun p ↦ if p.1 = o then p.2 else none

def argument? (w : Words) (o : Opt) : Option String := (w.arguments o).head?

end Words

/-- The options of a word, and the one at its end that still wants an argument, with its name as given. -/
structure Word where
  options : List (Opt × Option String) := []
  wanting : Option (Opt × String) := none

def readLong (l : List Char) : Except Fault Word :=
  let name := String.ofList (l.takeWhile (· ≠ '='))
  match Opt.ofName? name with
  | none => .error (.unrecognised name)
  | some o =>
    match l.dropWhile (· ≠ '='), o.argument? with
    | [], none => .ok { options := [(o, none)] }
    | [], some _ => .ok { wanting := some (o, name) }
    | _ :: _, none => .error (.unexpectedArgument name)
    | _ :: value, some _ => .ok { options := [(o, some (.ofList value))] }

def readShort : List Char → Except Fault Word
  | [] => .ok {}
  | c :: l =>
    match Opt.ofShort? c with
    | none => .error (.unrecognised (.ofList [c]))
    | some o =>
      match o.argument?, l with
      | none, l => (readShort l).map fun w ↦ { w with options := (o, none) :: w.options }
      | some _, [] => .ok { wanting := some (o, .ofList [c]) }
      | some _, value => .ok { options := [(o, some (.ofList value))] }

def scan (words : Words) : List String → Except Fault Words
  | [] => .ok words
  | word :: rest =>
    match word.toList with
    | ['-', '-'] => .ok { words with free := words.free ++ rest }
    | '-' :: c :: l =>
      match if c = '-' then readLong l else readShort (c :: l), rest with
      | .error fault, _ => .error fault
      | .ok ⟨options, none⟩, rest => scan { words with options := words.options ++ options } rest
      | .ok ⟨_, some (_, name)⟩, [] => .error (.missingArgument name)
      | .ok ⟨options, some (o, _)⟩, value :: rest =>
        scan { words with options := words.options ++ options ++ [(o, some value)] } rest
    | _ => scan { words with free := words.free ++ [word] } rest

def checkRepeated (words : Words) : Except Fault Unit :=
  match Opt.all.find? fun o ↦ !o.isRepeatable && 1 < words.options.countP (·.1 = o) with
  | some o => .error (.repeated o.long)
  | none => .ok ()

inductive Command
  | help
  | link (job : Job)
  deriving DecidableEq

def emitOf? : Option String → Option Emit
  | none => some .order
  | some "order" => some .order
  | some "dot" => some .dot
  | some _ => none

def Words.toCommand (w : Words) : Except Fault Command :=
  if w.isGiven .help then .ok .help
  else if w.free = [] then .error (.missingOption "INPUT")
  else
    match emitOf? (w.argument? .emit), w.argument? .output with
    | none, _ => .error (.missingArgument "--emit order|dot")
    | some _, none => .error (.missingOption "-o OUTPUT")
    | some emit, some output =>
      let start := w.arguments .start
      .ok (.link
        { inputs := w.free.map (⟨·⟩)
          output := ⟨output⟩
          emit
          externs := .ofList (w.arguments .externs)
          includes := .ofList (w.arguments .includes)
          start := if start = [] then none else some start
          policy :=
            { allowExternal := w.isGiven .allowExternal
              exportIncludes := w.isGiven .exportIncludes
              inheritanceOnly := w.isGiven .inheritanceOnly }
          strict := w.isGiven .strict
          report := (w.argument? .report).map (⟨·⟩) })

def parse (args : List String) : Except Fault Command := do
  let words ← scan {} args
  checkRepeated words
  words.toCommand

def descriptionColumn : Nat := 24

def spaces (n : Nat) : String := .ofList (List.replicate n ' ')

def usageRow (o : Opt) : String :=
  let short := match o.short? with
    | some c => s!"-{c}, "
    | none => spaces 4
  let row := spaces 4 ++ short ++ s!"--{o.long} " ++ o.argument?.getD ""
  let gap := if row.length < descriptionColumn then spaces (descriptionColumn - row.length)
    else "\n" ++ spaces descriptionColumn
  row ++ gap ++ o.description

def usage (program : String) : String :=
  s!"Usage: {program} [OPTIONS] INPUT... -o OUTPUT\n\nOptions:\n" ++
    "\n".intercalate (Opt.all.map usageRow) ++ "\n"

structure Exit where
  code : Nat
  stdout : String := ""
  stderr : String := ""
  deriving DecidableEq, Repr

/-- The exit of a command line that gives no job to do, or the job. -/
def plan (program : String) (args : List String) : Except Exit Job :=
  match parse args with
  | .error fault =>
    .error { code := 64, stdout := usage program ++ "\n", stderr := fault.message ++ "\n" }
  | .ok .help => .error { code := 0, stdout := usage program ++ "\n" }
  | .ok (.link job) => .ok job

def Exit.ofResult : Except Job.Error Unit → Exit
  | .ok _ => { code := 0 }
  | .error e => { code := 1, stderr := s!"fatal: {e.message}\n" }

def run (program : String) (args : List String) (t : FileTree) : Exit × FileTree :=
  match plan program args with
  | .error exit => (exit, t)
  | .ok job =>
    let outcome := job.run t
    (.ofResult outcome.result, outcome.tree)

end LinkOrder.CommandLine
