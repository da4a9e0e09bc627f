namespace LinkOrder

inductive Level
  | debug
  | info
  | warn
  deriving DecidableEq, Repr

def Level.label : Level → String
  | debug => "DEBUG"
  | info => "INFO"
  | warn => "WARN"

structure LogLine where
  level : Level
  text : String
  deriving DecidableEq, Repr

def LogLine.render (l : LogLine) : String := s!"{l.level.label}: {l.text}"

end LinkOrder
