import LinkOrder.CommandLine

namespace LinkOrder.CommandLine

def systemError (code : UInt32) (text : String) : FileError :=
  match code with
  | 2 => .notFound
  | 20 => .notDirectory
  | 21 => .isDirectory
  | 36 => .nameTooLong
  | _ => .other s!"{text} (os error {code})"

def fileError : IO.Error → FileError
  | .alreadyExists _ code text | .invalidArgument _ code text | .permissionDenied _ code text
  | .resourceExhausted _ code text | .inappropriateType _ code text | .noSuchThing _ code text
  | .noFileOrDirectory _ code text | .interrupted _ code text => systemError code text
  | .otherError code text | .resourceBusy code text | .resourceVanished code text
  | .unsupportedOperation code text | .hardwareFault code text | .unsatisfiedConstraints code text
  | .illegalOperation code text | .protocolError code text | .timeExpired code text =>
    systemError code text
  | .unexpectedEof => .other "unexpected end of file"
  | .userError text => .other text

def attempt {α : Type} (p : Path) (act : IO α) : IO (Except FileError α) := do
  match FileTree.checkText p with
  | .error e => return .error e
  | .ok _ =>
    try
      return .ok (← act)
    catch e =>
      return .error (fileError e)

/-- Why the parts of a path do not lead anywhere from the directory `dir`: the error of the first full path
on the way that cannot be looked up. -/
def unresolved (dir : String) : List (List Char) → IO FileError
  | [] => return .notFound
  | part :: parts => do
    if Path.isIdle part then unresolved dir parts
    else
      let here := dir ++ "/" ++ .ofList part
      let slash := if FileTree.slashBefore parts = [] then "" else "/"
      try
        let canonical ← IO.FS.realPath (here ++ slash)
        unresolved (if canonical.toString = "/" then "" else canonical.toString) parts
      catch _ =>
        match ← attempt ⟨here⟩ (IO.FS.Handle.mk (here ++ slash) .read) with
        | .error e => return e
        | .ok _ => return .nameTooLong

def canonicalize (p : Path) : IO (Except FileError Path) := do
  match ← attempt p do return Path.mk (← IO.FS.realPath p.text).toString with
  | .error .notFound =>
    if p.text = "" then return .error .notFound
    else
      let current ← IO.FS.realPath "."
      let dir := if p.isAbsolute then "" else current.toString
      return .error (← unresolved dir (Path.splitSlash p.text.toList))
  | result => return result

def openDocument (p : Path) : IO (Except FileError Markup.Document) := do
  match ← attempt p (IO.FS.Handle.mk p.text .read) with
  | .error e => return .error e
  | .ok handle =>
    match ← attempt p handle.readBinToEnd with
    | .ok bytes => return .ok (.ofFile bytes.data.toList)
    | .error e => return .ok (.unreadable e)

partial def loadAll (l : Job.Loading) : IO (Except Job.Error (List LinkUnit)) := do
  match l.pending with
  | [] => return .ok l.units
  | p :: rest =>
    let canonical ← canonicalize p
    let document ← match canonical with
      | .ok c => openDocument c
      | .error e => pure (.error e)
    match l.serve (fun _ ↦ canonical) (fun _ ↦ document) p rest with
    | .ok l => loadAll l
    | .error e => return .error e

def writeArtifact (a : Artifact) : IO (Except Job.Error Unit) := do
  match ← attempt a.path (IO.FS.Handle.mk a.path.text .write) with
  | .error e => return .error (.io e)
  | .ok handle =>
    let put (bytes : Text.Bytes) : IO (Except FileError Unit) := attempt a.path do
      handle.write ⟨bytes.toArray⟩
      handle.flush
    for bytes in a.printed do
      if let .error e ← put bytes then
        return .error (.report (.markup (.io e)))
    return (← put a.last).mapError .io

def writeArtifacts : List Artifact → IO (Except Job.Error Unit)
  | [] => return .ok ()
  | a :: rest => do
    match ← writeArtifact a with
    | .ok _ => writeArtifacts rest
    | .error e => return .error e

def runJob (job : Job) : IO (Except Job.Error Unit) := do
  match ← loadAll { pending := job.inputs } with
  | .error e => return .error e
  | .ok units =>
    match job.link units with
    | .error e => return .error (.link e)
    | .ok outcome => writeArtifacts (job.artifacts outcome)

end LinkOrder.CommandLine

open LinkOrder CommandLine in
def main (args : List String) : IO UInt32 := do
  let exit ← match plan "flexld" args with
    | .error exit => pure exit
    | .ok job => Exit.ofResult <$> runJob job
  IO.print exit.stdout
  IO.eprint exit.stderr
  return exit.code.toUInt32
