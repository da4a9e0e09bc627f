import LinkOrder.File.Path
import LinkOrder.Link.Error
import LinkOrder.Link.Report
import LinkOrder.UnitFile.Error

namespace LinkOrder.Job

inductive Error
  | io (e : FileError)
  | unopened (path : Path) (e : FileError)
  | unitFile (path : Path) (e : UnitFile.Error)
  | link (e : LinkError)
  | report (e : ReportError)
  deriving Repr

namespace Error

def message : Error → String
  | io e => e.message
  | unopened path e => s!"failed to open `{path.text}`: {e.message}"
  | unitFile path e => s!"{path.text}: {e.message}"
  | link e => e.message
  | report e => e.message

def causes : Error → List String
  | io e => [e.message]
  | unopened _ e => [e.message]
  | unitFile _ e => e.message :: e.causes
  | link e => [e.message]
  | report e => e.message :: e.causes

end Error

end LinkOrder.Job
