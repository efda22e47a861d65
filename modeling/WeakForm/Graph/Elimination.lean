import WeakForm.Graph.Leaves
import WeakForm.Graph.Scalarization

/-!
# Elimination of zero tables

A terminal whose table is zero is replaced by zero, and all expressions above it
are built again, so that the terms it makes vanish are folded away. Only a divisor
that would become zero keeps its terminals.

* `ScalarGraph.rebuilt` — the new expression of every node, by a forward sweep;
* `ScalarGraph.eliminateZeros` — the graph of the new targets.
-/

namespace WeakForm.ScalarGraph

variable {R : Type} [Scalar R] [DecidableEq R]

/-- Whether a node reads a zero table. -/
def readsZeros (tables : OptimizedTables R) (n : Node R) : Bool :=
  (tableOf tables n).any (·.type = .zeros)

/-- The new operands of a node, where a divisor that becomes zero is kept. -/
def keepDivisor (e : Expr R) (operands : List (Expr R)) : List (Expr R) :=
  match e, operands with
  | .binary .division _ divisor, [a, b] => [a, if b.isZero then divisor else b]
  | _, operands => operands

/-- The new expression of a node, given those of the nodes before it. -/
def rebuildNode (tables : OptimizedTables R) (before : Array (Expr R)) (n : Node R) :
    Checked R (Expr R) :=
  if n.isLeaf then .ok (if readsZeros tables n then Expr.zero [] else n.expr)
  else do
    let operands ← n.operands.mapM fun i =>
      match before[i]? with
      | some e => (.ok e : Checked R _)
      | none => .error .outOfBounds
    -- folding with the new operands makes the terms of a zero vanish
    n.expr.rebuild (keepDivisor n.expr operands)

/-- The new expression of every node. -/
def rebuilt (g : ScalarGraph R) (tables : OptimizedTables R) : Checked R (Array (Expr R)) :=
  g.nodes.foldlM (fun before n => return before.push (← rebuildNode tables before n)) #[]

/-- The graph of the targets, with zero for every terminal that reads a zero table. -/
def eliminateZeros (g : ScalarGraph R) (tables : OptimizedTables R) : Result R (ScalarGraph R) := do
  let es ← g.rebuilt tables
  let targets ← g.targets.toList.mapM fun i =>
    match es[i]? with
    | some e => (.ok e : Result R _)
    | none => .error (.breach .outOfBounds)
  ofTargets targets

end WeakForm.ScalarGraph
