import DerivativeParsing.Grammar.Traversal

/-!
# Drawings of a graph

The nodes below a node as a graph in the DOT language. Nodes are placed in the order in which they
are met, depth first and the left successor first; an edge is drawn when everything below its target
has been placed.
-/

namespace DerivativeParsing

/-- A graph to be drawn: the places of the nodes, their labels by place, and the edges. -/
structure Drawing where
  placed : Std.TreeMap NodeId Nat := {}
  labels : Array String := #[]
  edges : Array (Nat × Nat) := #[]

namespace Drawing

def place (id : NodeId) (label : String) : StateT Drawing (Except Error) Nat := fun d =>
  let position := d.labels.size
  .ok (position, { d with placed := d.placed.insert id position, labels := d.labels.push label })

def connect (source target : Nat) : StateT Drawing (Except Error) Unit :=
  modify fun d => { d with edges := d.edges.push (source, target) }

def text (d : Drawing) : String :=
  let node := fun (position : Nat) (label : String) =>
    "    N" ++ toString position ++ "[label=\"" ++ Text.ascii label ++ "\"];\n"
  let edge := fun (e : Nat × Nat) =>
    "    N" ++ toString e.1 ++ " -> N" ++ toString e.2 ++ "[label=\"\"];\n"
  "digraph grammar \x7b\n" ++
    String.join (d.labels.toList.zipIdx.map fun (label, i) => node i label) ++
    String.join (d.edges.toList.map edge) ++ "\x7d\n"

end Drawing

namespace Grammar

variable {L : Type} [Lexeme L]

def nodeLabel (id : NodeId) (node : Node L) : String :=
  Text.alignRight 4 id ++ " " ++
    match node with
    | .empty => "Emp"
    | .token kind => "':" ++ toString kind
    | .matched symbol => "e:" ++ Lexeme.quoted symbol.lexeme
    | .undefined name => "Ukn " ++ name
    | .alt _ _ => "Alt"
    | .cat _ _ => "Cat"
    | .rep _ => "Rep"
    | .rule r _ => "Nt " ++ r.name
    | .thunk t _ =>
      match t.state with
      | .forced target => "L:Forced(" ++ toString target ++ ")"
      | .culled (some target) => "L:Culled(Some(" ++ toString target ++ "))"
      | .culled none | .pending | .running => "L:" ++ toString t.symbol.kind

/-- The nodes that a drawing puts below a node. A thunk that stands for no node is drawn over its
base. -/
def drawnBelow (node : Node L) : List NodeId :=
  match node with
  | .thunk t base => [t.resolved?.getD base]
  | node => node.successors true

/-- Draws a node and everything below it, and answers its place. The calls nest no deeper than there
are nodes. -/
def drawNode (g : Grammar L) : Nat → NodeId → StateT Drawing (Except Error) Nat
  | 0, _ => throw .outOfFuel
  | fuel + 1, id => do
    match (← get).placed[id]? with
    | some position => return position
    | none =>
      let node ← liftM (g.lookup id)
      let position ← Drawing.place id (nodeLabel id node)
      (drawnBelow node).forM fun child => do
        let target ← drawNode g fuel child
        Drawing.connect position target
      return position

def drawing (g : Grammar L) (start : NodeId) : Except Error Drawing := do
  let (_, d) ← (g.drawNode (g.size + 1) start).run {}
  return d

/-- What a printer makes of the drawing of everything below a node. -/
def printed (print : Drawing → String) (g : Grammar L) (start : NodeId) : Except Error String :=
  (g.drawing start).map print

def dot (g : Grammar L) (start : NodeId) : Except Error String := g.printed Drawing.text start

end Grammar

end DerivativeParsing
