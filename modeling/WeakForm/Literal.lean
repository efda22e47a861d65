import WeakForm.Scalar

/-!
# Literals

A literal is an integer of 64 bits or a real. Arithmetic stays in the integers
as long as the result fits, and otherwise continues with the real values of the
operands. A quotient is always real.

* `Literal.value` — the number a literal stands for;
* `Literal.add`, `Literal.mul`, `Literal.div`, `Literal.pow`, `Literal.abs?`,
  `Literal.apply` — arithmetic.
-/

namespace WeakForm

/-- A number written in an integrand. -/
inductive Literal (R : Type) where
  | int (n : Int)
  | real (x : R)
  deriving DecidableEq, Repr

namespace Literal

/-- The range of integer literals. -/
def Fits (n : Int) : Prop :=
  -Int.pow 2 63 ≤ n ∧ n < Int.pow 2 63

instance (n : Int) : Decidable (Fits n) :=
  inferInstanceAs (Decidable (_ ∧ _))

variable {R : Type} [Scalar R]

/-- The number a literal stands for. -/
def value : Literal R → R
  | int n => Scalar.ofInt n
  | real x => x

def isZero : Literal R → Bool
  | int n => n == 0
  | real x => Scalar.isZero x

def isOne : Literal R → Bool
  | int n => n == 1
  | real x => Scalar.isOne x

/-- An integer operation that leaves the integers when its result does not fit. -/
def fold (onInt : Int → Int → Int) (onReal : R → R → R) : Literal R → Literal R → Literal R
  | int m, int n =>
    if Fits (onInt m n) then int (onInt m n) else real (onReal (Scalar.ofInt m) (Scalar.ofInt n))
  | a, b => real (onReal a.value b.value)

def add : Literal R → Literal R → Literal R :=
  fold (· + ·) Scalar.add

def mul : Literal R → Literal R → Literal R :=
  fold (· * ·) Scalar.mul

def div (a b : Literal R) : Literal R :=
  real (Scalar.div a.value b.value)

/-- The integer power `m ^ n`, if `n` is a 32-bit count and the power fits.
A base beyond `-1`, `0` and `1` has no power past the sixty-third that does. -/
def intPow? (m n : Int) : Option Int :=
  if n < 0 ∨ Int.pow 2 32 ≤ n then none
  else if m.natAbs ≤ 1 then some (if m = -1 ∧ n % 2 = 0 then 1 else if n = 0 then 1 else m)
  else if 63 < n then none
  else if Fits (Int.pow m n.toNat) then some (Int.pow m n.toNat) else none

def pow (a b : Literal R) : Literal R :=
  match a, b with
  | int m, int n =>
    match intPow? m n with
    | some p => int p
    | none => real (Scalar.pow (Scalar.ofInt m) (Scalar.ofInt n))
  | a, b => real (Scalar.pow a.value b.value)

/-- The absolute value. The least integer has none. -/
def abs? : Literal R → Option (Literal R)
  | int n => if Fits n.natAbs then some (int n.natAbs) else none
  | real x => some (real (Scalar.abs x))

def apply (f : MathFunction) (a : Literal R) : Literal R :=
  real (Scalar.apply f a.value)

end Literal

end WeakForm
