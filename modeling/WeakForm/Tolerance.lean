import WeakForm.Scalar

/-!
# Tolerances

Two values count as equal if they differ by at most an absolute tolerance plus a
relative one, which is measured by the second value.
-/

namespace WeakForm

/-- How far values may lie apart and still count as equal. -/
structure Tolerance (R : Type) where
  /-- Relative to the second value. -/
  rtol : R
  /-- In absolute terms. -/
  atol : R

namespace Tolerance

variable {R : Type} [Scalar R]

/-- `|a - b| ≤ atol + rtol · |b|`. -/
def isClose (tol : Tolerance R) (a b : R) : Bool :=
  Scalar.le (Scalar.abs (Scalar.sub a b)) (Scalar.add tol.atol (Scalar.mul tol.rtol (Scalar.abs b)))

/-- `|a| ≤ atol`. -/
def isNegligible (tol : Tolerance R) (a : R) : Bool :=
  Scalar.le (Scalar.abs a) tol.atol

end Tolerance

end WeakForm
