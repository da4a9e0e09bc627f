import LinkOrder.Job.Load
import LinkOrder.Link.Build
import LinkOrder.Link.Graph
import LinkOrder.Link.Walk

namespace LinkOrder

inductive Emit
  /-- The names of the linked units, one to a line, in order. -/
  | order
  | dot
  deriving DecidableEq, Repr

def Emit.label : Emit → String
  | order => "Order"
  | dot => "Dot"

structure Job where
  inputs : List Path
  output : Path
  emit : Emit := .order
  externs : SymbolSet := ∅
  includes : SymbolSet := ∅
  /-- Where the walk begins; `none` for every definition. -/
  start : Option (List Symbol) := none
  policy : Policy := {}
  /-- Whether an undefined symbol is an error. -/
  strict : Bool := false
  report : Option Path := none
  deriving DecidableEq

/-- A file to be written: the parts that are written while it is printed, the last part, and what is logged
once it is written. -/
structure Artifact where
  path : Path
  printed : List Text.Bytes := []
  last : Text.Bytes
  note : LogLine

/-- Writes a file that is open. Unlike the rest, what is printed fails as markup. -/
def Artifact.write (a : Artifact) (sink : Sink) : Option Job.Error × Sink :=
  match sink.putAll a.printed with
  | (some e, sink) => (some (.report (.markup (.io e))), sink)
  | (none, sink) =>
    let (e, sink) := sink.put a.last
    (e.map .io, sink)

structure JobOutcome where
  result : Except Job.Error Unit
  log : List LogLine
  tree : FileTree

def State.undefinedSymbols (s : State) : SymbolSet :=
  (s.unresolved.getD ∅).filter fun name ↦ name ∉ s.extdefs && (s.owner? name).isNone

namespace Job

/-- Links the units; the outcome has no error. -/
def link (job : Job) (units : List LinkUnit) : Except LinkError Outcome := do
  let s ← State.build units job.externs job.includes (if job.strict then none else some ∅)
  let outcome := s.traverse job.policy job.start
  match outcome.error with
  | some e => throw e
  | none => return outcome

def linkLog (units : List LinkUnit) (outcome : Outcome) : List LogLine :=
  ⟨.info, s!"linked {outcome.visits.length} of {units.length} unit(s)"⟩ ::
    outcome.state.undefinedSymbols.toList.map fun name ↦ ⟨.warn, s!"undefined symbol `{name}`"⟩

def outputText (job : Job) (outcome : Outcome) : String :=
  match job.emit with
  | .order => String.join (outcome.visits.map (·.name ++ "\n"))
  | .dot => outcome.state.graph.toDot

def reportArtifact (s : State) (path : Path) : Artifact :=
  let (printed, last) := buffered 8192 [] s.reportPieces
  { path, printed, last, note := ⟨.debug, s!"wrote report to `{path.text}`"⟩ }

def outputArtifact (job : Job) (outcome : Outcome) : Artifact :=
  { path := job.output
    last := Text.encode (job.outputText outcome)
    note := ⟨.debug, s!"wrote {job.emit.label} to `{job.output.text}`"⟩ }

def artifacts (job : Job) (outcome : Outcome) : List Artifact :=
  job.outputArtifact outcome :: (job.report.map (reportArtifact outcome.state)).toList

/-- Writes artifacts in order, up to the first that cannot be written in full. -/
def writeAll (disk : Disk) (t : FileTree) (log : List LogLine) : List Artifact → JobOutcome
  | [] => ⟨.ok (), log, t⟩
  | a :: rest =>
    match t.create disk a.path with
    | .error e => ⟨.error (.io e), log, t⟩
    | .ok (names, t) =>
      let (e, sink) := a.write { limit := disk.limit names }
      let t := t.set names (.file sink.taken)
      match e with
      | some e => ⟨.error e, log, t⟩
      | none => writeAll disk t (log ++ [a.note]) rest

def run (job : Job) (t : FileTree) (disk : Disk := {}) : JobOutcome :=
  match load t job.inputs with
  | (.error e, log) => ⟨.error e, log, t⟩
  | (.ok units, log) =>
    match job.link units with
    | .error e => ⟨.error (.link e), log, t⟩
    | .ok outcome => writeAll disk t (log ++ linkLog units outcome) (job.artifacts outcome)

end Job

end LinkOrder
