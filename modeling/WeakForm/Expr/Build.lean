import WeakForm.Breach

/-!
# Building expressions

Each function of this module builds one operator over given operands. It checks
the shape and index rules of the operator, and simplifies on the way:

* `0 + a = a`, `0 · a = 0`, `1 · a = a`, `a / 1 = a`, `0 / a = 0`, `a ^ 1 = a`;
* arithmetic on literals gives a literal, and a literal zero is a `zero`;
* index operators, sums and averages of a zero are zero;
* the derivative of a cellwise constant is zero;
* a modifier of a literal is the literal.

`UnaryOp.apply`, `BinaryOp.apply` and `Expr.rebuild` put an operator over other
operands by the same rules.
-/

namespace WeakForm.Expr

variable {R : Type}

/-! ## Terminals -/

/-- A test or trial function. -/
def argument (a : Argument) : Expr R := leaf (.argument a)

/-- A given function. -/
def coefficient (c : Coefficient) : Expr R := leaf (.coefficient c)

/-- A geometric quantity. -/
def geometry (g : Geometry) : Expr R := leaf (.geometry g)

/-- Zero of a shape. -/
def zero (shape : List Nat) : Expr R := leaf (.zero shape [])

/-- Zero of a shape and of sorted free indices. -/
def zeroOver (shape : List Nat) (free : FreeIndices) : Checked R (Expr R) :=
  if free.Sorted then .ok (leaf (.zero shape free)) else .error .unsortedZero

/-- The zero with the shape and the free indices that an operator gives its operand. -/
def zeroOf (op : UnaryOp) (a : Expr R) : Expr R :=
  leaf (.zero (op.shape a.signature) (op.free a.signature))

/-- The zero with the shape and the free indices that an operator gives its operands. -/
def zeroOf₂ (op : BinaryOp) (a b : Expr R) : Expr R :=
  leaf (.zero (op.shape a.signature b.signature) (op.free a.signature b.signature))

section Arithmetic

variable [Scalar R]

/-- A literal; the zero expression if its value is zero. -/
def literal (v : Literal R) : Expr R :=
  if v.isZero then zero [] else leaf (.literal v)

def int (n : Int) : Expr R := literal (.int n)

def real (x : R) : Expr R := literal (.real x)

/-! ## Algebra -/

/-- `a + b`, of operands of one shape and with the same free indices. -/
def add (a b : Expr R) : Checked R (Expr R) := do
  unless a.shape = b.shape do throw (.sumShapes a b)
  unless a.free = b.free do throw (.sumFree a b)
  if a.isZero then return b
  if b.isZero then return a
  if let (some x, some y) := (a.literal?, b.literal?) then return literal (x.add y)
  return binary .sum a b

/-- The free indices of two operands together. An index of both has to have one dimension. -/
def mergeFree (a b : Expr R) : Checked R FreeIndices :=
  (a.free.merge b.free).mapError .indexDimensions

/-- `a * b`, where one operand is scalar-shaped. A free index of both operands
is matched and not summed. -/
def mul (a b : Expr R) : Checked R (Expr R) := do
  unless a.shape.isEmpty ∨ b.shape.isEmpty do throw (.tensorProduct a b)
  let _ ← mergeFree a b
  if a.isZero || b.isZero then return zeroOf₂ .product a b
  if a.isOne then return b
  if b.isOne then return a
  if let (some x, some y) := (a.literal?, b.literal?) then return literal (x.mul y)
  return binary .product a b

/-- `a / b` by a scalar-shaped divisor that is not literally zero. A divisor with
free indices divides a scalar-shaped dividend with the same or no free indices. -/
def div (a b : Expr R) : Checked R (Expr R) := do
  unless b.shape.isEmpty do throw (.tensorDivisor b)
  if b.isZero then throw (.divisionByZero a b)
  unless b.free.isEmpty ∨ (a.shape.isEmpty ∧ (a.free.isEmpty ∨ a.free = b.free)) do
    throw (.divisionFree a b)
  let _ ← mergeFree a b
  if a.isZero then return zeroOf₂ .division a b
  if b.isOne then return a
  if let (some x, some y) := (a.literal?, b.literal?) then return literal (x.div y)
  return binary .division a b

/-- The literal an exponent or base consists of, where a scalar zero counts as one. -/
def constant? : Expr R → Option (Literal R)
  | leaf (.literal v) => some v
  | leaf (.zero [] []) => some (.real Scalar.zero)
  | _ => none

/-- `a ^ b` for scalar-shaped `a` and scalar `b`. -/
def pow (a b : Expr R) : Checked R (Expr R) := do
  unless a.shape.isEmpty do throw (.tensorPower a)
  unless b.isScalar do throw (.exponentNotScalar b)
  if b.isOne then return a
  if let (some x, some y) := (a.constant?, b.constant?) then return literal (x.pow y)
  return binary .power a b

/-- An elementary function of a scalar-shaped operand. -/
def math (f : MathFunction) (a : Expr R) : Checked R (Expr R) := do
  unless a.shape.isEmpty do throw (.tensorFunction f a)
  if let some x := a.constant? then return literal (x.apply f)
  return unary (.math f) a

/-- Componentwise absolute value. -/
def abs (a : Expr R) : Checked R (Expr R) :=
  if a.isZero then .ok a
  else match a.literal? with
    | some v =>
      match v.abs? with
      | some v => .ok (literal v)
      -- the least integer has no absolute value
      | none => .error .overflow
    | none => .ok (unary .abs a)

/-! ## Indexing -/

/-- The sum of `a` over all positions of its free index `i`. -/
def sumOver (a : Expr R) (i : IndexId) : Checked R (Expr R) := do
  unless a.free.has i do throw (.indexSumNotFree i a)
  if a.isZero then return zeroOf (.indexSum i) a
  return unary (.indexSum i) a

/-- From the given axis on, fixed indices lie in their axis, and free ones are new
to `a` and to each other. -/
def checkIndices (a : Expr R) : List Index → List Nat → Nat → List IndexId → Checked R Unit
  | .fixed p :: is, dim :: dims, axis, seen => do
    unless p < dim do throw (.indexRange p dim axis a)
    checkIndices a is dims (axis + 1) seen
  | .free i :: is, _ :: dims, axis, seen => do
    if a.free.has i || seen.contains i then throw (.repeatedIndex i a)
    checkIndices a is dims (axis + 1) (i :: seen)
  | _, _, _, _ => .ok ()

/-- `a[is]`, one index per axis. -/
def index (a : Expr R) (is : List Index) : Checked R (Expr R) := do
  unless is.length = a.rank do throw (.indexCount a is.length)
  -- a scalar without entries stays as it is
  if is.isEmpty then return a
  checkIndices a is a.shape 0 []
  if a.isZero then return zeroOf (.indexed is) a
  return unary (.indexed is) a

/-- The identities of the indices a tensor ranges over, each free in `a` and new
to the ones before it. -/
def tensorAxes (a : Expr R) : List Index → FreeIndices → Checked R (List IndexId)
  | [], _ => .ok []
  | .fixed p :: _, _ => .error (.tensorOverFixed (.fixed p) a)
  | .free i :: is, free => do
    unless free.has i do throw (.tensorNotFree i a)
    return i :: (← tensorAxes a is (free.erase i))

/-- The tensor whose axes range over the free indices `is` of scalar-shaped `a`. -/
def tensor (a : Expr R) (is : List Index) : Checked R (Expr R) := do
  unless a.shape.isEmpty do throw (.tensorOverTensor a)
  if is.isEmpty then return a
  let ids ← tensorAxes a is a.free
  if a.isZero then return zeroOf (.componentTensor ids) a
  return unary (.componentTensor ids) a

/-- Items of the shape and with the free indices of the first. -/
def checkItems (first : Expr R) : List (Expr R) → Checked R Unit
  | [] => .ok ()
  | item :: rest => do
    unless item.shape = first.shape do throw .listTensorShapes
    unless item.free = first.free do throw .listTensorFree
    checkItems first rest

/-- Items of one shape and with the same free indices, along a new leading axis. -/
def stack (items : List (Expr R)) : Checked R (Expr R) :=
  match items with
  | [] => .error .emptyListTensor
  | first :: rest => do
    checkItems first rest
    if items.all (·.isZero) then return leaf (.zero (items.length :: first.shape) first.free)
    return listTensor items

/-! ## Modifiers -/

/-- The value of `a` on one side of an interior facet. -/
def restrict (side : Side) (a : Expr R) : Expr R :=
  if a.isConstantValue then a else unary (.restricted side) a

/-- The average of `a` over the cell or the facet. -/
def average (region : Averaging) (a : Expr R) : Expr R :=
  if a.isConstantValue then a else unary (.averaged region) a

/-- The domain a derivative is taken on. -/
def derivativeDomain (operator : String) (a : Expr R) : Checked R Domain :=
  match a.domain? with
  | some d => .ok d
  | none => .error (.noDomain operator a)

/-- Gradient in physical coordinates, along a new last axis. -/
def gradient (a : Expr R) : Checked R (Expr R) := do
  let _ ← derivativeDomain "grad" a
  if a.isCellwiseConstant then return zeroOf .grad a
  return unary .grad a

/-- Gradient in reference coordinates, along a new last axis. -/
def referenceGradient (a : Expr R) : Checked R (Expr R) := do
  let _ ← derivativeDomain "reference_grad" a
  if a.isCellwiseConstant then return zeroOf .referenceGrad a
  return unary .referenceGrad a

/-- Fixed directions lie in the space, and free ones are new to `a`. -/
def checkDirections (a : Expr R) (gdim : Nat) : List Index → Checked R Unit
  | [] => .ok ()
  | .fixed p :: is => do
    unless p < gdim do throw (.directionRange p gdim)
    checkDirections a gdim is
  | .free i :: is => do
    if a.free.has i then throw (.directionNotNew i a)
    checkDirections a gdim is

/-- The derivative of `a` in the physical directions `is`. A free direction ranges
over the dimension of space. -/
def derivative (a : Expr R) (is : List Index) : Checked R (Expr R) := do
  if is.isEmpty then return a
  let d ← derivativeDomain "spatial_derivative" a
  checkDirections a d.gdim is
  if a.isCellwiseConstant then return zeroOf (.spatialDerivative is) a
  return unary (.spatialDerivative is) a

/-- A labelled expression. -/
def label (number : Nat) (a : Expr R) : Expr R :=
  unary (.labelled number) a

end Arithmetic

end Expr

/-! ## Operators over other operands -/

variable {R : Type} [Scalar R]

/-- Build a unary operator over an operand. -/
def UnaryOp.apply (op : UnaryOp) (a : Expr R) : Checked R (Expr R) :=
  match op with
  | math f => a.math f
  | abs => a.abs
  | indexSum i => a.sumOver i
  | indexed is => a.index is
  | componentTensor is => a.tensor (is.map .free)
  | restricted side => .ok (a.restrict side)
  | grad => a.gradient
  | referenceGrad => a.referenceGradient
  | spatialDerivative is => a.derivative is
  | averaged region => .ok (a.average region)
  | labelled number => .ok (a.label number)

/-- Build a binary operator over two operands. -/
def BinaryOp.apply (op : BinaryOp) (a b : Expr R) : Checked R (Expr R) :=
  match op with
  | sum => a.add b
  | product => a.mul b
  | division => a.div b
  | power => a.pow b

namespace Expr

/-- The root of an expression over new operands. A terminal has none and is kept. -/
def rebuild (e : Expr R) (operands : List (Expr R)) : Checked R (Expr R) :=
  match e, operands with
  | leaf _, _ => .ok e
  | unary op _, a :: _ => op.apply a
  | binary op _ _, a :: b :: _ => op.apply a b
  | listTensor _, items => stack items
  | unary _ _, [] | binary _ _ _, [] | binary _ _ _, [_] => .error .outOfBounds

/-! ## Compound expressions -/

/-- `a - b`. -/
def sub (a b : Expr R) : Checked R (Expr R) := do
  a.add (← (int (-1)).mul b)

/-- `∑ᵢ a[i] * b[i]` of two vectors of one length, with `i` the next unused index. -/
def dot (a b : Expr R) : ExceptT (Breach R) (StateM IndexId) (Expr R) := do
  unless a.rank = 1 ∧ b.rank = 1 ∧ a.shape = b.shape do throw (.dotVectors a b)
  let i ← modifyGet fun next => (next, next + 1)
  -- the index is used up, also where the product cannot be built
  let product : Checked R (Expr R) := do (← a.index [.free i]).mul (← b.index [.free i])
  liftExcept do (← product).sumOver i
where
  liftExcept (e : Checked R (Expr R)) : ExceptT (Breach R) (StateM IndexId) (Expr R) :=
    ExceptT.mk (pure e)

/-- The sum of a non-empty list, nested to the left. -/
def sumAll : List (Expr R) → Checked R (Expr R)
  | [] => .error .emptySum
  | first :: rest => rest.foldlM add first

/-- The product of a non-empty list, nested to the left. -/
def productAll : List (Expr R) → Checked R (Expr R)
  | [] => .error .emptyProduct
  | first :: rest => rest.foldlM mul first

end Expr

/-- The first index that is drawn for a summation. Indices named by a caller lie below. -/
def firstDrawnIndex : IndexId := Nat.pow 2 20

end WeakForm
