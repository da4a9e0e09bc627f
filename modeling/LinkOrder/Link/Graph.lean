import LinkOrder.Link.State

namespace LinkOrder

inductive EdgeKind
  | pre
  | dep
  deriving DecidableEq, Repr

def EdgeKind.label : EdgeKind → String
  | pre => "pre"
  | dep => "dep"

structure Edge where
  source : String
  target : String
  kind : EdgeKind
  deriving DecidableEq, Repr

structure Graph where
  nodes : List String
  edges : List Edge
  deriving DecidableEq, Repr

namespace State

/-- The unit to which a reference to that symbol leads: none if the symbol is external, and none that is
native. -/
def target? (s : State) (name : Symbol) : Option LinkUnit :=
  if name ∈ s.extdefs then none else (s.owner? name).filter (!·.native)

def edgesOf (s : State) (u : LinkUnit) (kind : EdgeKind) (refs : List Symbol) : List Edge :=
  refs.filterMap fun name ↦ (s.target? name).map fun v ↦ ⟨u.name, v.name, kind⟩

/-- Every unit that is not native, and its references in order, prerequisites first. -/
def graph (s : State) : Graph :=
  let linkable := s.units.filter (!·.native)
  { nodes := linkable.map (·.name)
    edges := linkable.flatMap fun u ↦ s.edgesOf u .pre u.pres ++ s.edgesOf u .dep u.deps }

end State

namespace Graph

def escapeLabel (name : String) : String :=
  .ofList (name.toList.flatMap fun c ↦
    if c = '\x22' ∨ c = '\\' then ['\\', c] else if c = '\n' then ['\\', 'l'] else [c])

def nodeLine (i : Nat) (name : String) : String :=
  s!"    {i} [ label = \"{escapeLabel name}\" ]\n"

def edgeLine (g : Graph) (e : Edge) : String :=
  s!"    {g.nodes.idxOf e.source} -> {g.nodes.idxOf e.target} [ label = \"{e.kind.label}\" ]\n"

def toDot (g : Graph) : String :=
  "digraph \x7b\n" ++ String.join (g.nodes.mapIdx nodeLine) ++ String.join (g.edges.map g.edgeLine) ++
    "\x7d\n"

end Graph

end LinkOrder
