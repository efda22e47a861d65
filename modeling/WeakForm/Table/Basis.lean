import Std.Data.HashMap
import WeakForm.Breach

/-!
# Basis values

Raw values of the basis functions of an element at the points of one entity, as
a caller supplies them: one `BasisTable` per permutation of the entity, filed
under a key that names element, points, entity, averaging and derivatives.
-/

namespace WeakForm

/-- Coordinates that derivatives are counted in. -/
inductive Frame where
  | reference | physical
  deriving DecidableEq, Repr

/-- What basis values are filed under. -/
structure BasisKey where
  points : Nat
  element : ElementId
  averaged : Option Averaging
  entity : Nat
  frame : Frame
  /-- Number of derivatives along each direction, less than 256. -/
  derivatives : List Nat
  deriving DecidableEq, Repr

instance : Hashable BasisKey where
  hash k :=
    Digest.mix (Digest.nat k.points) <| Digest.mix (Digest.nat k.element) <|
      Digest.mix (Digest.nat k.entity) (Digest.list Digest.nat k.derivatives)

/-- What a build does where a number passes the range of its type: it ends there, or the number
starts again from zero. -/
inductive Overflow where
  | checked | wrapping
  deriving DecidableEq, Repr

/-- One more derivative along a direction. The count of each direction is a byte. -/
def countDerivative {R : Type} (overflow : Overflow) (counts : List UInt8) (direction : Nat) :
    Checked R (List UInt8) :=
  match counts[direction]? with
  | none => .error .outOfBounds
  | some n =>
    if overflow = .checked ∧ n = 255 then .error .overflow
    else .ok (counts.set direction (n + 1))

/-- The count of derivatives along each of `dim` directions. -/
def derivativeCounts {R : Type} (directions : List Nat) (dim : Nat)
    (overflow : Overflow := .checked) : Checked R (List Nat) := do
  let counts ← directions.foldlM (countDerivative overflow) (List.replicate dim 0)
  return counts.map UInt8.toNat

/-- Values of basis functions, laid out `[dof][component][point]`. -/
structure BasisTable (R : Type) where
  dofs : Nat
  components : Nat
  points : Nat
  values : Array R
  size_values : values.size = dofs * components * points

namespace BasisTable

variable {R : Type}

/-- A table of the given values. -/
def ofValues (dofs components points : Nat) (values : Array R) : Checked R (BasisTable R) :=
  if h : values.size = dofs * components * points then
    .ok { dofs, components, points, values, size_values := h }
  else .error (.basisSize dofs components points)

/-- The table with `f dof component point` at each position. -/
def ofFn (dofs components points : Nat) (f : Nat → Nat → Nat → R) : BasisTable R where
  dofs := dofs
  components := components
  points := points
  values := Array.ofFn (n := dofs * components * points) fun i =>
    f (i / points / components) (i / points % components) (i % points)
  size_values := by simp

/-- The value at the flat position of a dof, a component and a point. -/
def get? (t : BasisTable R) (dof component point : Nat) : Option R :=
  t.values[(dof * t.components + component) * t.points + point]?

end BasisTable

/-- Basis values by key, one table per permutation. -/
structure BasisValues (R : Type) where
  tables : Std.HashMap BasisKey (List (BasisTable R)) := ∅

namespace BasisValues

variable {R : Type}

/-- Add the next permutation under a key. -/
def insert (b : BasisValues R) (key : BasisKey) (table : BasisTable R) : BasisValues R where
  tables := b.tables.insert key (b.tables.getD key [] ++ [table])

/-- The permutations under a key. -/
def get (b : BasisValues R) (key : BasisKey) : List (BasisTable R) :=
  b.tables.getD key []

/-- The number of keys. -/
def size (b : BasisValues R) : Nat :=
  b.tables.size

end BasisValues

/-- Quadrature points and weights. -/
structure QuadratureRule (R : Type) where
  /-- One coordinate tuple per point. -/
  points : List (List R)
  weights : List R

namespace QuadratureRule

variable {R : Type}

/-- A rule with one weight per point. -/
def ofPoints (points : List (List R)) (weights : List R) : Checked R (QuadratureRule R) :=
  if points.length = weights.length then .ok { points, weights } else .error .weightCount

/-- The number of points. -/
def size (q : QuadratureRule R) : Nat :=
  q.weights.length

end QuadratureRule

end WeakForm
