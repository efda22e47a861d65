import WeakForm.Graph.Basic
import WeakForm.Table.Assembly

/-!
# Leaves of a graph

The leaves of a graph are analysed as modified terminals, and read their tables.

* `ScalarGraph.describeLeaves` — the graph with the descriptor of every leaf noted;
* `ScalarGraph.terminals` — the descriptors that are noted, in order of nodes;
* `ScalarGraph.assignTables` — the graph with the table of every leaf noted that
  has one.
-/

namespace WeakForm.ScalarGraph

variable {R : Type} [DecidableEq R]

/-- Note the descriptor of a leaf. -/
def describeLeaf (n : Node R) : Result R (Node R) := do
  if !n.isLeaf then return n
  match ← n.expr.analyse with
  | some m => return { n with terminal := some m }
  | none => throw (.unexpectedNode n.expr)

/-- Note the descriptor of every leaf. -/
def describeLeaves (g : ScalarGraph R) : Result R (ScalarGraph R) := do
  return { g with nodes := ← g.nodes.mapM describeLeaf }

/-- The descriptors that are noted, in order of nodes. -/
def terminals (g : ScalarGraph R) : List (ModifiedTerminal R) :=
  g.nodes.toList.filterMap (·.terminal)

/-- The table of a node's terminal. -/
def tableOf (tables : OptimizedTables R) (n : Node R) : Option TableReference := do
  tables.references[(← n.terminal).toDescriptor]?

/-- Note the table of a node, if its terminal has one. -/
def assignTable (tables : OptimizedTables R) (n : Node R) : Node R :=
  match tableOf tables n with
  | some t => { n with table := some t }
  | none => n

/-- Note the table of every terminal that has one. -/
def assignTables (g : ScalarGraph R) (tables : OptimizedTables R) : ScalarGraph R :=
  { g with nodes := g.nodes.map (assignTable tables) }

/-- The nodes that a target needs, as far as the last partition knows. -/
def activeNodes (g : ScalarGraph R) : List (Node R) :=
  g.nodes.toList.filter (·.status ≠ .inactive)

end WeakForm.ScalarGraph
