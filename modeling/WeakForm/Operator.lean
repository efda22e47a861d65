import WeakForm.Index.Basic
import WeakForm.Scalar

/-!
# Operators

The operators of the expression language, by the number of their operands:

* `UnaryOp` — functions of one operand, index operators, derivatives,
  restrictions, averages and labels;
* `BinaryOp` — algebra.

The remaining operator, the stacking of a list of expressions into a tensor, has
no payload and is a constructor of expressions itself.
-/

namespace WeakForm

/-- Side of an interior facet that a quantity is taken from. -/
inductive Side where
  | positive | negative
  deriving DecidableEq, Repr

namespace Side

def symbol : Side → String
  | positive => "+"
  | negative => "-"

def rank : Side → Nat
  | positive => 0
  | negative => 1

instance : Ord Side where
  compare a b := compare a.rank b.rank

end Side

/-- The region a quantity is averaged over. -/
inductive Averaging where
  | cell | facet
  deriving DecidableEq, Repr

namespace Averaging

def rank : Averaging → Nat
  | cell => 0
  | facet => 1

instance : Ord Averaging where
  compare a b := compare a.rank b.rank

end Averaging

/-- An operator of one operand. -/
inductive UnaryOp where
  /-- Elementary function. -/
  | math (f : MathFunction)
  /-- Componentwise absolute value. -/
  | abs
  /-- Sum over all positions of a free index. -/
  | indexSum (i : IndexId)
  /-- Selection of a component, one index per axis. -/
  | indexed (is : List Index)
  /-- Tensor whose axes range over free indices of the operand. -/
  | componentTensor (is : List IndexId)
  /-- Value on one side of an interior facet. -/
  | restricted (side : Side)
  /-- Gradient in physical coordinates. -/
  | grad
  /-- Gradient in reference coordinates. -/
  | referenceGrad
  /-- Derivative in the given physical directions. -/
  | spatialDerivative (is : List Index)
  /-- Average over the cell or the facet. -/
  | averaged (region : Averaging)
  /-- Label, transparent to evaluation. -/
  | labelled (label : Nat)
  deriving DecidableEq, Repr

namespace UnaryOp

/-- The operator's name in diagnostics. -/
def name : UnaryOp → String
  | math _ => "math_function"
  | abs => "abs"
  | indexSum _ => "index_sum"
  | indexed _ => "indexed"
  | componentTensor _ => "component_tensor"
  | restricted .positive => "positive_restricted"
  | restricted .negative => "negative_restricted"
  | grad => "grad"
  | referenceGrad => "reference_grad"
  | spatialDerivative _ => "spatial_derivative"
  | averaged .cell => "cell_avg"
  | averaged .facet => "facet_avg"
  | labelled _ => "variable"

/-- Operators that wrap a terminal without computing with its value. -/
def isModifier : UnaryOp → Bool
  | indexed _ | restricted _ | grad | referenceGrad | spatialDerivative _ | averaged _ => true
  | math _ | abs | indexSum _ | componentTensor _ | labelled _ => false

/-- The indices of an indexing. -/
def indices? : UnaryOp → Option (List Index)
  | indexed is => some is
  | _ => none

end UnaryOp

/-- An operator of two operands. -/
inductive BinaryOp where
  | sum | product | division | power
  deriving DecidableEq, Repr

namespace BinaryOp

/-- The operator's name in diagnostics. -/
def name : BinaryOp → String
  | sum => "sum"
  | product => "product"
  | division => "division"
  | power => "power"

end BinaryOp

end WeakForm
