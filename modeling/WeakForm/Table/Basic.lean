import WeakForm.Breach
import WeakForm.Tolerance

/-!
# Tables

A table holds the values of the basis functions of an element, or of one of their
components or derivatives, for each permutation of the facet, each entity, each
point and each dof. Values are laid out in that order, the dofs running fastest.

* `Table.ofFn`, `Table.ofValues` — the table of a function, or of given values;
* `Table.get?` — the value at a flat position;
* `Table.truncate`, `Table.slice`, `Table.pad` — fewer rows, fewer and more columns;
* `Table.clamp` — values next to `0`, `1` and `-1` snapped to them;
* `Table.strip` — a table without zero columns at both ends;
* `Table.isClose` — equality of tables within a tolerance.
-/

namespace WeakForm

/-- The lengths of a table's axes. -/
structure TableShape where
  permutations : Nat
  entities : Nat
  points : Nat
  dofs : Nat
  deriving DecidableEq, Repr

namespace TableShape

def toList (s : TableShape) : List Nat :=
  [s.permutations, s.entities, s.points, s.dofs]

/-- The number of values. -/
def size (s : TableShape) : Nat :=
  s.permutations * s.entities * s.points * s.dofs

/-- The number of rows of columns. -/
def rows (s : TableShape) : Nat :=
  s.permutations * s.entities * s.points

/-- The place of a value in the layout. -/
def place (s : TableShape) (p e q d : Nat) : Nat :=
  ((p * s.entities + e) * s.points + q) * s.dofs + d

end TableShape

/-- Values by permutation, entity, point and dof. -/
structure Table (R : Type) where
  shape : TableShape
  values : Array R
  size_values : values.size = shape.size

namespace Table

variable {R : Type}

/-- A table of the given values. -/
def ofValues (shape : TableShape) (values : Array R) : Checked R (Table R) :=
  if h : values.size = shape.size then .ok ⟨shape, values, h⟩ else .error (.tableSize shape.toList)

/-- The table with `f permutation entity point dof` at each position. -/
def ofFn (shape : TableShape) (f : Nat → Nat → Nat → Nat → R) : Table R where
  shape := shape
  values := Array.ofFn (n := shape.size) fun i =>
    f (i / shape.dofs / shape.points / shape.entities)
      (i / shape.dofs / shape.points % shape.entities)
      (i / shape.dofs % shape.points) (i % shape.dofs)
  size_values := by simp

/-- The value at the flat position of a permutation, an entity, a point and a dof. -/
def get? (t : Table R) (p e q d : Nat) : Option R :=
  t.values[t.shape.place p e q d]?

variable [Scalar R]

/-- The value at a position, zero past the end. -/
def get (t : Table R) (p e q d : Nat) : R :=
  (t.get? p e q d).getD Scalar.zero

/-- Only the leading permutations, entities and points. -/
def truncate (t : Table R) (permutations entities points : Nat) : Table R :=
  ofFn
    { t.shape with
      permutations := min permutations t.shape.permutations
      entities := min entities t.shape.entities
      points := min points t.shape.points }
    t.get

/-- The columns from `start` up to `stop`, which are columns of the table. -/
def columns (t : Table R) (start stop : Nat) : Table R :=
  ofFn { t.shape with dofs := stop - start } fun p e q d => t.get p e q (start + d)

/-- The columns from `start` up to `stop`. -/
def slice (t : Table R) (start stop : Nat) : Checked R (Table R) :=
  if stop < start then .error .overflow
  -- without rows there is no column to miss
  else if 0 < t.shape.rows ∧ start < stop ∧ t.shape.dofs < stop then .error .outOfBounds
  else .ok (t.columns start stop)

/-- The columns placed at `start` within `dofs` columns of zeros. -/
def pad (t : Table R) (start dofs : Nat) : Table R :=
  ofFn { t.shape with dofs := dofs } fun p e q d =>
    if start ≤ d ∧ d < start + t.shape.dofs then t.get p e q (d - start) else Scalar.zero

/-! ## Values within a tolerance -/

/-- The first of `0`, `1` and `-1` that a value is close to, or else the value. -/
def snap (tol : Tolerance R) (v : R) : R :=
  ([Scalar.zero, Scalar.one, Scalar.ofInt (-1)].find? (tol.isClose v)).getD v

/-- Every value snapped to `0`, `1` or `-1` where it is close to one of them. -/
def clamp (t : Table R) (tol : Tolerance R) : Table R where
  shape := t.shape
  values := t.values.map (snap tol)
  size_values := by simp [t.size_values]

/-- Values of one length, each close to the one in the same place. -/
def allClose (tol : Tolerance R) (a b : Array R) : Bool :=
  a.size == b.size && (a.toList.zip b.toList).all fun (x, y) => tol.isClose x y

/-- Tables of one shape with close values. -/
def isClose (tol : Tolerance R) (a b : Table R) : Bool :=
  a.shape = b.shape && allClose tol a.values b.values

/-- A property of all positions of the rows of a table. -/
def forRows (t : Table R) (holds : Nat → Nat → Nat → Bool) : Bool :=
  (List.range t.shape.permutations).all fun p =>
    (List.range t.shape.entities).all fun e => (List.range t.shape.points).all fun q => holds p e q

/-- A column without values above the absolute tolerance. -/
def isZeroColumn (t : Table R) (tol : Tolerance R) (d : Nat) : Bool :=
  t.forRows fun p e q => tol.isNegligible (t.get p e q d)

/-- A range of columns of a table. -/
structure Stripped (R : Type) where
  start : Nat
  stop : Nat
  table : Table R

/-- The table without zero columns at both ends: the first and the last column that are
not zero are searched for from either end. Where all columns are zero, none is kept, and
both ends of the range are the number of columns. -/
def strip (t : Table R) (tol : Tolerance R) : Stripped R :=
  let dofs := t.shape.dofs
  match (List.range dofs).find? fun d => !t.isZeroColumn tol d with
  | none => ⟨dofs, dofs, t.columns dofs dofs⟩
  | some start =>
    -- the search from the end stops at the first column that is not zero, at the latest
    let last? := (List.range' start (dofs - start)).reverse.find? fun d => !t.isZeroColumn tol d
    let stop := (last?.map (· + 1)).getD dofs
    ⟨start, stop, t.columns start stop⟩

end Table

end WeakForm
