import WeakForm.Graph.Basic

/-!
# Partition of a graph

A node is active if a target needs it. Of the active nodes, those that depend on
a quantity which changes between quadrature points are varying, and the others
piecewise constant: they are evaluated once per cell.

* `ScalarGraph.active` — a backward sweep from the targets;
* `ScalarGraph.partition` — a forward sweep that notes the status of every node.
  Where a leaf has none, it fails, and the statuses noted before stay.
-/

namespace WeakForm

namespace Node

variable {R : Type}

/-- The status of an active leaf: by its table, or without one by its terminal. -/
def leafStatus (n : Node R) : Result R NodeStatus :=
  match n.table with
  | some t => .ok (if t.type.isVarying then .varying else .piecewise)
  | none =>
    match n.expr.core with
    | some (.geometry g) =>
      if g.isPointDependent then .ok .varying
      else if n.expr.isCellwiseConstant then .ok .piecewise
      else .error (.unclassified n.expr)
    | _ => if n.expr.isCellwiseConstant then .ok .piecewise else .error (.unclassified n.expr)

end Node

namespace ScalarGraph

variable {R : Type} [DecidableEq R]

/-- Mark the operands of a node, if it is marked itself. -/
def markOperands (g : ScalarGraph R) (marked : Array Bool) (i : NodeId) : Array Bool :=
  if marked.getD i false then
    ((g.nodes[i]?.map (·.operands)).getD []).foldl
      (fun marked j => marked.setIfInBounds j true) marked
  else marked

/-- The nodes that a target needs. -/
def active (g : ScalarGraph R) : Array Bool :=
  -- users stand behind their operands, so they are marked before
  g.ids.reverse.foldl g.markOperands
    (g.targets.foldl (fun marked i => marked.setIfInBounds i true) (Array.replicate g.size false))

/-- The status of a node, given those of its operands. -/
def statusOf (g : ScalarGraph R) (isActive : Bool) (n : Node R) : Result R NodeStatus :=
  if !isActive then .ok .inactive
  else if n.isLeaf then n.leafStatus
  else if n.operands.any fun j => (g.nodes[j]?.map (·.status)) = some .varying then .ok .varying
  else .ok .piecewise

/-- Note the status of one node. -/
def partitionNode (active : Array Bool) (i : NodeId) : Building R Unit := do
  let g ← get
  let s ← ofExcept (g.statusOf (active.getD i false) (← g.node i))
  set (← g.setStatus i s)

/-- Note the status of every node. All targets have to be nodes of the graph. -/
def partition : Building R Unit := do
  let g ← get
  unless g.targets.all (· < g.size) do throw (.breach .outOfBounds)
  g.ids.forM (partitionNode g.active)

end ScalarGraph

end WeakForm
