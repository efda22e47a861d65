/-!
# Scalar arithmetic

The expressions and tables of this library are generic in the numbers they
compute with. `Scalar R` names the operations they need. The program runs on
double precision (`WeakForm.Machine`); an exact field is an instance as well,
and there every fold of literals is exact.
-/

namespace WeakForm

/-- The elementary functions of one variable. -/
inductive MathFunction where
  | sqrt | exp | ln
  | sin | cos | tan
  | asin | acos | atan
  | sinh | cosh | tanh
  | erf
  deriving DecidableEq, Repr

namespace MathFunction

/-- The name a function is written with. -/
def name : MathFunction → String
  | sqrt => "sqrt"
  | exp => "exp"
  | ln => "ln"
  | sin => "sin"
  | cos => "cos"
  | tan => "tan"
  | asin => "asin"
  | acos => "acos"
  | atan => "atan"
  | sinh => "sinh"
  | cosh => "cosh"
  | tanh => "tanh"
  | erf => "erf"

/-- Every elementary function. -/
def all : List MathFunction :=
  [sqrt, exp, ln, sin, cos, tan, asin, acos, atan, sinh, cosh, tanh, erf]

/-- The function with a given name. -/
def ofName? (name : String) : Option MathFunction :=
  all.find? fun f => f.name == name

end MathFunction

/-- The operations on numbers that literals, tables and monomials need. -/
class Scalar (R : Type) where
  /-- The number nearest to an integer. -/
  ofInt : Int → R
  add : R → R → R
  sub : R → R → R
  mul : R → R → R
  div : R → R → R
  pow : R → R → R
  abs : R → R
  apply : MathFunction → R → R
  /-- Numeric comparison. -/
  le : R → R → Bool
  /-- Numeric equality, which need not be reflexive. -/
  same : R → R → Bool

namespace Scalar

variable {R : Type} [Scalar R]

def zero : R := ofInt 0

def one : R := ofInt 1

def isZero (x : R) : Bool := same x zero

def isOne (x : R) : Bool := same x one

end Scalar

end WeakForm
