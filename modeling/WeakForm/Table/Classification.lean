import WeakForm.Table.Basic
import WeakForm.Table.Reference

/-!
# Classification of tables

A table is classified by the axes its values depend on, and compressed by keeping
one row along an axis they do not depend on. All comparisons are within a
tolerance.

* `Table.isZeros`, `Table.isOnes`, `Table.isQuadrature`, `Table.isPiecewise`,
  `Table.isUniform`, `Table.isPermuted` — what values depend on;
* `Table.classify` — the type of a table;
* `Table.compress` — a table without the rows its type makes redundant.
-/

namespace WeakForm.Table

variable {R : Type} [Scalar R]

/-- All values are zero. -/
def isZeros (t : Table R) (tol : Tolerance R) : Bool :=
  t.values.all fun v => tol.isClose v Scalar.zero

/-- One column of ones. -/
def isOnes (t : Table R) (tol : Tolerance R) : Bool :=
  t.shape.dofs == 1 && t.values.all fun v => tol.isClose v Scalar.one

/-- The identity between points and dofs, for every permutation and entity. -/
def isQuadrature (t : Table R) (tol : Tolerance R) : Bool :=
  t.shape.points == t.shape.dofs && t.forRows fun p e q =>
    (List.range t.shape.dofs).all fun d =>
      tol.isClose (t.get p e q d) (if q = d then Scalar.one else Scalar.zero)

/-- On every entity, the values at each point are those at the first. -/
def isPiecewise (t : Table R) (tol : Tolerance R) : Bool :=
  -- only the first permutation is looked at
  (List.range t.shape.entities).all fun e =>
    (List.range' 1 (t.shape.points - 1)).all fun q =>
      (List.range t.shape.dofs).all fun d => tol.isClose (t.get 0 e 0 d) (t.get 0 e q d)

/-- Two blocks of points and dofs have close values. -/
def closeBlocks (t : Table R) (tol : Tolerance R) (p e p' e' : Nat) : Bool :=
  (List.range t.shape.points).all fun q =>
    (List.range t.shape.dofs).all fun d => tol.isClose (t.get p e q d) (t.get p' e' q d)

/-- Every entity has the values of the first. -/
def isUniform (t : Table R) (tol : Tolerance R) : Bool :=
  (List.range' 1 (t.shape.entities - 1)).all fun e => t.closeBlocks tol 0 0 0 e

/-- Some permutation has other values than the first. -/
def isPermuted (t : Table R) (tol : Tolerance R) : Bool :=
  (List.range' 1 (t.shape.permutations - 1)).any fun p =>
    (List.range t.shape.entities).any fun e => !t.closeBlocks tol 0 e p e

/-- `isPiecewise`, where a table without permutations has nothing to compare. -/
def checkPiecewise (t : Table R) (tol : Tolerance R) : Checked R Bool :=
  if t.shape.permutations = 0 ∧ 0 < t.shape.entities ∧ 1 < t.shape.points ∧ 0 < t.shape.dofs then
    .error .outOfBounds
  else .ok (t.isPiecewise tol)

/-- `isUniform`, where a table without a first block has nothing to compare. -/
def checkUniform (t : Table R) (tol : Tolerance R) : Checked R Bool :=
  if t.shape.permutations * t.shape.entities = 0 ∧ 0 < t.shape.points * t.shape.dofs then
    .error .outOfBounds
  else .ok (t.isUniform tol)

/-- The type of a table. One without values is zero. -/
def classify (t : Table R) (tol : Tolerance R) : TableType :=
  if t.values.isEmpty || t.isZeros tol then .zeros
  else if t.isOnes tol then .ones
  else if t.isQuadrature tol then .quadrature
  else match t.isPiecewise tol, t.isUniform tol with
    | true, true => .fixed
    | true, false => .piecewise
    | false, true => .uniform
    | false, false => .varying

/-- The table without the rows that its type, or the equality of its permutations,
makes redundant. -/
def compress (t : Table R) (type : TableType) (tol : Tolerance R) : Table R :=
  t.truncate (if t.isPermuted tol then t.shape.permutations else 1)
    (if type.isUniform then 1 else t.shape.entities)
    (if type.isPiecewise then 1 else t.shape.points)

end WeakForm.Table
