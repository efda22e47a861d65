import WeakForm.Factorization
import WeakForm.Graph.Leaves

/-!
# Blocks of the element tensor

The terms of one argument key are summed into one block of the element tensor. Its
axes are the arguments of the key, and each axis covers the dofs of the table that
the argument reads. Blocks that cover the same dofs are filed together.

* `Block` — the factors and arguments of one key;
* `Block.isHoisted` — whether the block is computed once, outside the loop over
  quadrature points;
* `Block.ofTerms` — the block of every key of a factorization.
-/

namespace WeakForm

/-- An argument of a block: its position in the argument vector, and its table. -/
structure BlockArgument where
  position : Nat
  table : TableReference
  deriving DecidableEq, Repr

/-- The terms of one argument key. -/
structure Block where
  arguments : List BlockArgument
  /-- Each factor with the target component it belongs to. -/
  factors : List (NodeId × Nat)
  /-- All factors are piecewise constant. -/
  isFactorPiecewise : Bool
  /-- The side that each argument is taken from, if its table depends on the entity. -/
  restrictions : List (Option Side)
  /-- The axes are in the order of the key. -/
  isTransposed : Bool := false
  /-- The number of points of the loop whose graph holds the factors. -/
  points : Nat
  deriving DecidableEq, Repr

namespace Block

/-- The dofs covered by each axis. -/
abbrev Dofs := List (List Nat)

/-- Blocks by the dofs they cover. -/
abbrev File := Std.TreeMap Dofs (List Block)

/-- Add a block to those that cover the same dofs. -/
def file (blocks : File) (dofs : Dofs) (b : Block) : File :=
  blocks.insert dofs (blocks.getD dofs [] ++ [b])

def dofs (b : Block) : Dofs :=
  b.arguments.map (·.table.dofmap)

/-- The type of the table of each axis. -/
def types (b : Block) : List TableType :=
  b.arguments.map (·.table.type)

/-- The name of the table of each axis. -/
def names (b : Block) : List String :=
  b.arguments.map (·.table.name)

/-- No axis depends on the entity. -/
def isUniform (b : Block) : Bool :=
  b.arguments.all (·.table.isUniform)

/-- Some axis depends on the permutation of the facet. -/
def isPermuted (b : Block) : Bool :=
  b.arguments.any (·.table.isPermuted)

/-- A block is computed outside the loop if neither its factors nor its tables
depend on the point, and no weight does. -/
def isHoisted (b : Block) (expectsWeight : Bool) : Bool :=
  b.isFactorPiecewise && !expectsWeight && b.arguments.all (·.table.isPiecewise)

variable {R : Type} [DecidableEq R]

/-- The argument at a position, with its side and its table. -/
def argument (f : Factorization R) (tables : List TableReference) (position : Nat) :
    Result R (BlockArgument × Option Side) :=
  match f.arguments[position]?, tables[position]? with
  | some m, some t => .ok (⟨position, t⟩, if t.isUniform then none else m.restriction)
  | _, _ => .error (.breach .outOfBounds)

/-- The block of one key. -/
def ofKey (f : Factorization R) (tables : List TableReference) (points : Nat)
    (key : ArgumentKey) (factors : List (NodeId × Nat)) : Result R Block := do
  let arguments ← key.mapM (argument f tables)
  return {
    arguments := arguments.map (·.1)
    factors
    isFactorPiecewise := factors.all fun (i, _) =>
      (f.graph.nodes[i]?.map (·.status)) = some .piecewise
    restrictions := arguments.map (·.2)
    points }

/-- The block of every key, in ascending order of key. -/
def ofTerms (f : Factorization R) (tables : List TableReference) (points : Nat) :
    Result R (List Block) :=
  f.terms.toList.mapM fun (key, factors) => ofKey f tables points key factors

end Block

end WeakForm
