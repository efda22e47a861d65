import WeakForm.Integral.Measure
import WeakForm.Monomial.Factor

/-!
# Monomials

A monomial is a coefficient times a product of factors, and a sum of monomials is
a list of them. Monomials are multiplied by joining their factors, and sums by
multiplying every monomial of one with every monomial of the other.

* `Monomial.mul`, `MonomialSum.add`, `MonomialSum.mul`, `MonomialSum.pow` —
  arithmetic;
* `MonomialSum.same` — equality in order; `MonomialSum.isEquivalent` — equality up
  to order. Coefficients are compared as numbers.
-/

namespace WeakForm

/-- A coefficient times a product of factors. -/
structure Monomial (R : Type) where
  coefficient : R
  factors : List (Factor R) := []
  /-- Axes of a tensor that were opened and not yet indexed. -/
  slots : Option (List IndexId) := none

namespace Monomial

variable {R : Type} [Scalar R]

/-- A single factor. -/
def ofFactor (f : Factor R) : Monomial R where
  coefficient := Scalar.one
  factors := [f]

/-- The product: factors of the left operand come first. -/
def mul (m n : Monomial R) : Monomial R where
  coefficient := Scalar.mul m.coefficient n.coefficient
  factors := m.factors ++ n.factors

/-- Equal coefficients, factors and slots. -/
def same [DecidableEq R] (m n : Monomial R) : Bool :=
  Scalar.same m.coefficient n.coefficient && decide (m.factors = n.factors) &&
    decide (m.slots = n.slots)

end Monomial

/-- A sum of monomials. The empty sum is zero. -/
abbrev MonomialSum (R : Type) := List (Monomial R)

namespace MonomialSum

variable {R : Type} [Scalar R]

def zero : MonomialSum R := []

def one : MonomialSum R := [{ coefficient := Scalar.one }]

def add (a b : MonomialSum R) : MonomialSum R :=
  a ++ b

/-- Every monomial of the left operand times every one of the right. -/
def mul (a b : MonomialSum R) : MonomialSum R :=
  a.flatMap fun m => b.map m.mul

/-- The product of `n` equal sums. -/
def pow (a : MonomialSum R) : Nat → MonomialSum R
  | 0 => one
  | n + 1 => (pow a n).mul a

variable [DecidableEq R]

/-- The same monomials in the same order. -/
def same (a b : MonomialSum R) : Bool :=
  a.length == b.length && (a.zip b).all fun (m, n) => m.same n

/-- A sum without the first monomial that is the same as the given one. -/
def remove? (m : Monomial R) : MonomialSum R → Option (MonomialSum R)
  | [] => none
  | n :: rest => if n.same m then some rest else (remove? m rest).map (n :: ·)

/-- The same monomials in some order: each of the left operand is taken out of the right. -/
def isEquivalent : MonomialSum R → MonomialSum R → Bool
  | [], b => b.isEmpty
  | m :: a, b =>
    match remove? m b with
    | some b => isEquivalent a b
    | none => false

end MonomialSum

/-- Sums of monomials over measures. -/
abbrev MonomialForm (R : Type) := List (MonomialSum R × Measure)

end WeakForm
