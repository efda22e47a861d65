import Mathlib.Data.Rat.Cast.Defs
import Mathlib.Algebra.Order.Ring.Rat
import Mathlib.Algebra.Order.Ring.Cast
import WeakForm.Proofs.Semantics

/-!
# Exact arithmetic

The rationals are numbers to compute with, and every fold of literals is exact in them.
A power with an exponent that is not whole, and an elementary function, has no rational
value in general and is taken to be zero.

* `Model.rational` — a model over the rationals, for given terminals and modifiers;
* `rational_exact`, `rational_exactQuotients`, `rational_exactFunctions`,
  `rational_exactPowers` — it is exact.
-/

namespace WeakForm

instance : Scalar ℚ where
  ofInt n := n
  add x y := x + y
  sub x y := x - y
  mul x y := x * y
  div x y := x / y
  pow x y := if y.den = 1 then x ^ y.num else 0
  abs x := |x|
  apply _ _ := 0
  le x y := x ≤ y
  same x y := x = y

namespace Model

variable {terminal : Terminal ℚ → List Nat → ℚ}
  {modified : UnaryOp → Expr ℚ → (List Nat → Env → ℚ) → List Nat → Env → ℚ}

/-- The model of the rationals in which literals stand for themselves. -/
def rational (terminal : Terminal ℚ → List Nat → ℚ)
    (modified : UnaryOp → Expr ℚ → (List Nat → Env → ℚ) → List Nat → Env → ℚ) : Model ℚ ℚ where
  number x := x
  quotient x y := x / y
  power := Scalar.pow
  math := Scalar.apply
  abs := Scalar.abs
  terminal := terminal
  modified := modified

/-- Numbers, sums and products of rationals are exact. -/
theorem rational_exact : (rational terminal modified).Exact where
  ofInt _ := rfl
  add _ _ := rfl
  mul _ _ := rfl
  isZero h := of_decide_eq_true h
  isOne h := of_decide_eq_true h

theorem rational_exactQuotients : (rational terminal modified).ExactQuotients where
  quotient _ _ := rfl
  div _ _ := rfl

/-- Powers, elementary functions and absolute values of rationals are exact. -/
theorem rational_exactFunctions : (rational terminal modified).ExactFunctions where
  power_one x := by
    show (if (1 : ℚ).den = 1 then x ^ (1 : ℚ).num else 0) = x
    simp
  power_int m n := by
    show (if (n : ℚ).den = 1 then (m : ℚ) ^ (n : ℚ).num else 0) = (m : ℚ) ^ n
    simp
  pow _ _ := rfl
  math _ _ := rfl
  abs_int n := by
    show |(n : ℚ)| = n.natAbs
    rw [Nat.cast_natAbs, Int.cast_abs]
  abs _ := rfl

/-- Natural powers of rationals are repeated products. -/
theorem rational_exactPowers : (rational terminal modified).ExactPowers where
  nat x n := by
    show (if (n : ℚ).den = 1 then x ^ (n : ℚ).num else 0) = x ^ n
    simp
  pow _ _ := rfl

end Model

end WeakForm
