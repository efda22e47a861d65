import WeakForm.Error
import WeakForm.Table.Reference

/-!
# Scalar graphs

A scalar graph holds scalar expressions, each once, together with their operands.
A node is inserted after its operands, so the operands of a node have smaller
numbers and a pass over the graph is a single sweep, forward or backward.

* `ScalarGraph` — the nodes, the targets, and the node of each expression;
* `ScalarGraph.insert` — the node of an expression, inserted with its operands if
  it is new. Where it fails, operands inserted before stay;
* `ScalarGraph.consumers` — the nodes that each node is an operand of.
-/

namespace WeakForm

/-- Number of a node in its graph. -/
abbrev NodeId := Nat

/-- When a node is evaluated. -/
inductive NodeStatus where
  /-- No target needs it. -/
  | inactive
  /-- Once per cell. -/
  | piecewise
  /-- At every quadrature point. -/
  | varying
  deriving DecidableEq, Repr

namespace NodeStatus

def name : NodeStatus → String
  | inactive => "inactive"
  | piecewise => "piecewise"
  | varying => "varying"

def all : List NodeStatus :=
  [inactive, piecewise, varying]

def ofName? (name : String) : Option NodeStatus :=
  all.find? fun s => s.name == name

end NodeStatus

/-- A scalar expression in a graph, with what passes have noted about it. -/
structure Node (R : Type) where
  expr : Expr R
  /-- The nodes of the operands, in order. -/
  operands : List NodeId
  status : NodeStatus := .inactive
  terminal : Option (ModifiedTerminal R) := none
  table : Option TableReference := none

namespace Node

/-- A leaf has no operands. -/
def isLeaf {R : Type} (n : Node R) : Bool :=
  n.operands.isEmpty

end Node

/-- Scalar expressions, each once and after its operands. -/
structure ScalarGraph (R : Type) [DecidableEq R] where
  nodes : Array (Node R) := #[]
  /-- The node of each output component. A node may be that of several. -/
  targets : Array NodeId := #[]
  /-- The node that holds an expression. -/
  index : Std.HashMap (Expr R) NodeId := ∅

/-- A computation that extends a graph. Where it fails, what it has done stays. -/
abbrev Building (R : Type) [DecidableEq R] (α : Type) :=
  ExceptT (Error R) (StateM (ScalarGraph R)) α

namespace ScalarGraph

variable {R : Type} [DecidableEq R]

/-- The number of nodes. -/
def size (g : ScalarGraph R) : Nat :=
  g.nodes.size

def isEmpty (g : ScalarGraph R) : Bool :=
  g.nodes.isEmpty

/-- All nodes, operands first. -/
def ids (g : ScalarGraph R) : List NodeId :=
  List.range g.size

/-- A node of the graph. -/
def node (g : ScalarGraph R) (i : NodeId) : Checked R (Node R) :=
  match g.nodes[i]? with
  | some n => .ok n
  | none => .error .outOfBounds

/-- The expression a node holds. -/
def expr (g : ScalarGraph R) (i : NodeId) : Checked R (Expr R) :=
  (g.node i).map (·.expr)

/-- The node that holds an expression. -/
def lookup (g : ScalarGraph R) (e : Expr R) : Option NodeId :=
  g.index[e]?

def isTarget (g : ScalarGraph R) (i : NodeId) : Bool :=
  g.targets.contains i

/-- Add an output component. -/
def pushTarget (g : ScalarGraph R) (i : NodeId) : ScalarGraph R :=
  { g with targets := g.targets.push i }

/-- Change what is noted about a node. -/
def annotate (g : ScalarGraph R) (i : NodeId) (f : Node R → Node R) : Checked R (ScalarGraph R) :=
  if i < g.size then .ok { g with nodes := g.nodes.modify i f } else .error .outOfBounds

def setStatus (g : ScalarGraph R) (i : NodeId) (s : NodeStatus) : Checked R (ScalarGraph R) :=
  g.annotate i fun n => { n with status := s }

def setTable (g : ScalarGraph R) (i : NodeId) (t : TableReference) : Checked R (ScalarGraph R) :=
  g.annotate i fun n => { n with table := some t }

def setTerminal (g : ScalarGraph R) (i : NodeId) (m : ModifiedTerminal R) :
    Checked R (ScalarGraph R) :=
  g.annotate i fun n => { n with terminal := some m }

/-- The number of nodes with a status. -/
def count (g : ScalarGraph R) (s : NodeStatus) : Nat :=
  g.nodes.countP (·.status = s)

/-! ## Insertion -/

/-- Add a node at the end. -/
def append (e : Expr R) (operands : List NodeId) : Building R NodeId :=
  modifyGet fun g =>
    (g.size,
      { g with nodes := g.nodes.push { expr := e, operands }, index := g.index.insert e g.size })

/-- The node of a scalar expression, inserted after its operands if it is new.
Algebra and elementary functions have operands, modified terminals have none, and
all else has no place in a graph. -/
def insert (e : Expr R) : Building R NodeId := do
  match (← get).lookup e with
  | some i => return i
  | none =>
    -- an expression that is there already has passed the checks
    unless e.isScalar do throw (.breach (.nodeNotScalar e))
    match e with
    | .binary _ a b => do append e [← insert a, ← insert b]
    | .unary (.math _) a | .unary .abs a => do append e [← insert a]
    | _ =>
      unless e.isModifiedTerminal do throw (.unexpectedNode e)
      append e []

/-- Insert an expression and add its node as an output component. -/
def insertTarget (e : Expr R) : Building R Unit := do
  let i ← insert e
  modify (·.pushTarget i)

/-! ## Consumers -/

/-- Add a consumer of a node, if it is not the last one added. The last one added is the
first in the list. -/
def addConsumer (consumers : Array (List NodeId)) (consumer operand : NodeId) :
    Array (List NodeId) :=
  consumers.modify operand fun cs => if cs.head? = some consumer then cs else consumer :: cs

/-- The nodes that each node is an operand of, each once and in ascending order. -/
def consumers (g : ScalarGraph R) : Array (List NodeId) :=
  let latest := g.ids.foldl
    (fun consumers i =>
      ((g.nodes[i]?.map (·.operands)).getD []).foldl (addConsumer · i) consumers)
    (Array.replicate g.size [])
  latest.map List.reverse

end ScalarGraph

end WeakForm
