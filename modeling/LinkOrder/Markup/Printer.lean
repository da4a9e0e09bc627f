import LinkOrder.Text.Utf8

namespace LinkOrder.Markup

inductive Line
  | opening (name : String) (attributes : List (String × String))
  | single (name : String) (attributes : List (String × String))
  | closing (name : String)
  deriving DecidableEq, Repr

def escapeChar (c : Char) : String :=
  match c with
  | '<' => "&lt;"
  | '>' => "&gt;"
  | '\x27' => "&apos;"
  | '&' => "&amp;"
  | '\x22' => "&quot;"
  | c => c.toString

def escape (value : String) : String := String.join (value.toList.map escapeChar)

def printAttribute (a : String × String) : String := s!" {a.1}=\"{escape a.2}\""

namespace Line

def print : Line → String
  | opening name attributes => s!"<{name}{String.join (attributes.map printAttribute)}>"
  | single name attributes => s!"<{name}{String.join (attributes.map printAttribute)}/>"
  | closing name => s!"</{name}>"

def pieces : Line → List String
  | opening name attributes => ["<", name ++ String.join (attributes.map printAttribute), ">"]
  | single name attributes => ["<", name ++ String.join (attributes.map printAttribute), "/>"]
  | closing name => ["</", name, ">"]

/-- How many elements are open where the line stands, and how many after it. -/
def depths (depth : Nat) : Line → Nat × Nat
  | opening _ _ => (depth, depth + 1)
  | single _ _ => (depth, depth)
  | closing _ => (depth - 1, depth - 1)

end Line

def indentation (depth : Nat) : String := String.ofList (List.replicate (2 * depth) ' ')

def printLines (depth : Nat) : List Line → List String
  | [] => []
  | l :: rest =>
    let (own, after) := l.depths depth
    (indentation own ++ l.print) :: printLines after rest

def print (lines : List Line) : String := "\n".intercalate (printLines 0 lines)

/-- The lines in the pieces that they are written in. A line that is not the first begins with a line break. -/
def pieces (first : Bool) (depth : Nat) : List Line → List String
  | [] => []
  | l :: rest =>
    let (own, after) := l.depths depth
    (if first then [] else ["\n", indentation own]) ++ l.pieces ++ pieces false after rest

end LinkOrder.Markup
