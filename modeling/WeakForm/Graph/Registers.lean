import WeakForm.Graph.Basic
import WeakForm.Parameters

/-!
# Registers

A value that is used again is worth keeping. Its score is the number of its
operands times the cube of the number of its consumers, and elementary functions
score higher by a factor. Targets are always kept; of the other nodes, the best
are, as far as the budget goes.

* `ScalarGraph.scores` — the score of every active node;
* `ScalarGraph.registers` — the register of every node that is kept.
-/

namespace WeakForm.ScalarGraph

variable {R : Type} [DecidableEq R]

/-- The score of an active node with a number of consumers. -/
def score (p : Parameters R) (n : Node R) (consumers : Nat) : Option Nat :=
  if n.status = .inactive then none
  else
    let base := n.operands.length * Nat.pow consumers 3
    match n.expr with
    | .unary (.math _) _ => some (base * p.expensiveMultiplier)
    | _ => some base

/-- The score of every node, none for an inactive one. -/
def scores (g : ScalarGraph R) (p : Parameters R) : List (Option Nat) :=
  List.zipWith (fun n cs => score p n cs.length) g.nodes.toList g.consumers.toList

/-- The order of nodes with their scores: best first, and of equals the earlier first. -/
def betterLE (a b : Nat × NodeId) : Bool :=
  b.1 < a.1 || (b.1 == a.1 && a.2 ≤ b.2)

/-- All nodes that have a score, with it, the best first. -/
def ranked (scores : List (Option Nat)) : List (Nat × NodeId) :=
  (scores.zipIdx.filterMap fun (s?, i) => s?.map (·, i)).mergeSort betterLE

/-- The marks of the targets. -/
def targetMarks (g : ScalarGraph R) : Array Bool :=
  g.targets.foldl (fun marked i => marked.setIfInBounds i true) (Array.replicate g.size false)

/-- The number of nodes that are targets. -/
def targetCount (g : ScalarGraph R) : Nat :=
  g.targetMarks.count true

/-- The number of nodes kept besides the targets, if there are as many. -/
def budget (g : ScalarGraph R) (p : Parameters R) : Nat :=
  max g.targetCount (min p.maxRegisters g.size - g.targetCount)

/-- Mark nodes in order while the budget lasts and scores exceed the threshold. A node
that is marked before costs nothing. -/
def markBest (threshold : Nat) : Nat → List (Nat × NodeId) → Array Bool → Array Bool
  | 0, _, marked => marked
  | _, [], marked => marked
  | budget + 1, (s, i) :: rest, marked =>
    if s ≤ threshold then marked
    else if marked.getD i false then markBest threshold (budget + 1) rest marked
    else markBest threshold budget rest (marked.setIfInBounds i true)

/-- Registers in ascending order of node, for those that are kept. -/
def number (next : Nat) : List Bool → List (Option Nat)
  | [] => []
  | true :: rest => some next :: number (next + 1) rest
  | false :: rest => none :: number next rest

/-- The register of every node, given a score for each. -/
def registers (g : ScalarGraph R) (scores : List (Option Nat)) (p : Parameters R) :
    Checked R (List (Option Nat)) := do
  unless g.targets.all (· < g.size) do throw .outOfBounds
  unless g.size ≤ scores.length do throw .outOfBounds
  let marked :=
    markBest p.scoreThreshold (g.budget p) (ranked (scores.take g.size)) g.targetMarks
  return number 0 marked.toList

end WeakForm.ScalarGraph
