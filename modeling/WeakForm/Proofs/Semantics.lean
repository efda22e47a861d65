import Mathlib.Algebra.BigOperators.Group.Finset.Basic
import Mathlib.Algebra.BigOperators.Ring.Finset
import Mathlib.Algebra.Field.Basic
import Mathlib.Tactic.Ring
import WeakForm.Expr.Basic

/-!
# The value of an expression

An expression denotes a number for every component of its shape and every choice of
positions for its free indices. The value is defined by recursion on the expression:
algebra acts on components, an index of both factors of a product is matched, a sum
over an index runs over the whole range, indexing selects and a component tensor
binds its indices to the component.

What the recursion cannot know is collected in a `Model`: the numbers that literals
stand for, the elementary functions, the values of terminals, and the meaning of the
operators that wrap a terminal. The meaning of such a modifier may depend on its
operand's syntax (a derivative of a table entry) or on its operand's values (a
derivation of a ring).

* `Env`, `Env.bind` — positions for indices;
* `Model` — the parameters of the semantics;
* `Expr.value` — the value of an expression;
* `Model.Exact`, `Model.ExactQuotients`, `Model.ExactFunctions`, `Model.ExactPowers` — folds
  of literals are read as exact.
-/

namespace WeakForm

/-! ## Positions -/

/-- A position for every index. -/
abbrev Env := IndexId → Nat

namespace Env

/-- The first of the given positions for each of the given indices. -/
def bind (σ : Env) (ids : List IndexId) (positions : List Nat) : Env :=
  fun i => ((ids.zip positions).lookup i).getD (σ i)

/-- The position that one entry of an indexing selects. -/
def resolve (σ : Env) : Index → Nat
  | .fixed p => p
  | .free i => σ i

@[simp] theorem bind_nil (σ : Env) (positions : List Nat) : σ.bind [] positions = σ := by
  funext i
  simp [bind]

theorem bind_self (σ : Env) (i : IndexId) (p : Nat) : σ.bind [i] [p] i = p := by
  simp [bind]

theorem bind_of_ne (σ : Env) {i j : IndexId} (p : Nat) (h : j ≠ i) :
    σ.bind [i] [p] j = σ j := by
  simp [bind, List.lookup_cons, beq_eq_false_iff_ne.mpr h]

@[simp] theorem resolve_fixed (σ : Env) (p : Nat) : σ.resolve (.fixed p) = p := rfl

@[simp] theorem resolve_free (σ : Env) (i : IndexId) : σ.resolve (.free i) = σ i := rfl

end Env

/-! ## Models -/

/-- What the value of an expression is computed from. -/
structure Model (R A : Type) where
  /-- The number a literal's value stands for. -/
  number : R → A
  quotient : A → A → A
  power : A → A → A
  math : MathFunction → A → A
  abs : A → A
  /-- The components of a terminal that is neither a literal nor a zero. -/
  terminal : Terminal R → List Nat → A
  /-- The components of a modifier over an operand, given the operand's values. -/
  modified : UnaryOp → Expr R → (List Nat → Env → A) → List Nat → Env → A

namespace Model

variable {R A : Type} [Scalar R]

/-- Integers, sums and products of numbers are read as exact, and so are the tests for
zero and one. -/
structure Exact [CommRing A] (M : Model R A) : Prop where
  ofInt (n : Int) : M.number (Scalar.ofInt n) = n
  add (x y : R) : M.number (Scalar.add x y) = M.number x + M.number y
  mul (x y : R) : M.number (Scalar.mul x y) = M.number x * M.number y
  isZero {x : R} (h : Scalar.isZero x) : M.number x = 0
  isOne {x : R} (h : Scalar.isOne x) : M.number x = 1

/-- Division is that of the field, total as such, and quotients of numbers are exact. -/
structure ExactQuotients [Field A] (M : Model R A) : Prop where
  quotient (x y : A) : M.quotient x y = x / y
  div (x y : R) : M.number (Scalar.div x y) = M.number x / M.number y

/-- Powers, elementary functions and absolute values of numbers are exact. -/
structure ExactFunctions [CommRing A] (M : Model R A) : Prop where
  power_one (x : A) : M.power x 1 = x
  power_int (m : Int) (n : Nat) : M.power m n = (m : A) ^ n
  pow (x y : R) : M.number (Scalar.pow x y) = M.power (M.number x) (M.number y)
  math (f : MathFunction) (x : R) : M.number (Scalar.apply f x) = M.math f (M.number x)
  abs_int (n : Int) : M.abs n = n.natAbs
  abs (x : R) : M.number (Scalar.abs x) = M.abs (M.number x)

/-- Powers with a whole exponent are those of the ring, and powers of numbers are exact. -/
structure ExactPowers [CommRing A] (M : Model R A) : Prop where
  nat (x : A) (n : Nat) : M.power x n = x ^ n
  pow (x y : R) : M.number (Scalar.pow x y) = M.power (M.number x) (M.number y)

/-- The number a literal stands for. -/
def literal (M : Model R A) (v : Literal R) : A :=
  M.number v.value

end Model

/-! ## Values -/

namespace Expr

variable {R A : Type} [Scalar R] [CommRing A]

mutual

/-- The value of an expression at a component and positions for the free indices. -/
def value (M : Model R A) : Expr R → List Nat → Env → A
  | leaf (.literal v), _, _ => M.literal v
  | leaf (.zero _ _), _, _ => 0
  | leaf (.argument a), c, _ => M.terminal (.argument a) c
  | leaf (.coefficient a), c, _ => M.terminal (.coefficient a) c
  | leaf (.geometry g), c, _ => M.terminal (.geometry g) c
  | unary (.math f) a, c, σ => M.math f (value M a c σ)
  | unary .abs a, c, σ => M.abs (value M a c σ)
  | unary (.indexSum i) a, c, σ =>
    ∑ j ∈ Finset.range ((a.free.dim? i).getD 0), value M a c (σ.bind [i] [j])
  | unary (.indexed is) a, _, σ => value M a (is.map σ.resolve) σ
  | unary (.componentTensor ids) a, c, σ => value M a [] (σ.bind ids c)
  | unary (.restricted side) a, c, σ => M.modified (.restricted side) a (value M a) c σ
  | unary .grad a, c, σ => M.modified .grad a (value M a) c σ
  | unary .referenceGrad a, c, σ => M.modified .referenceGrad a (value M a) c σ
  | unary (.spatialDerivative is) a, c, σ => M.modified (.spatialDerivative is) a (value M a) c σ
  | unary (.averaged region) a, c, σ => M.modified (.averaged region) a (value M a) c σ
  | unary (.labelled _) a, c, σ => value M a c σ
  | binary .sum a b, c, σ => value M a c σ + value M b c σ
  | binary .product a b, c, σ => value M a (c.take a.rank) σ * value M b (c.take b.rank) σ
  | binary .division a b, c, σ => M.quotient (value M a c σ) (value M b [] σ)
  | binary .power a b, c, σ => M.power (value M a c σ) (value M b [] σ)
  | listTensor items, k :: c, σ => itemValue M items k c σ
  | listTensor _, [], _ => 0

/-- The value of the item at a position. -/
def itemValue (M : Model R A) : List (Expr R) → Nat → List Nat → Env → A
  | [], _, _, _ => 0
  | item :: _, 0, c, σ => value M item c σ
  | _ :: items, k + 1, c, σ => itemValue M items k c σ

end

/-! ### One operator at a time -/

section Nodes

variable (M : Model R A) (a b : Expr R) (c : List Nat) (σ : Env)

@[simp] theorem value_zero (shape : List Nat) (free : FreeIndices) :
    (leaf (.zero shape free)).value M c σ = 0 := rfl

@[simp] theorem value_leaf_literal (v : Literal R) :
    (leaf (.literal v)).value M c σ = M.literal v := rfl

theorem value_unary_math (f : MathFunction) :
    (unary (.math f) a).value M c σ = M.math f (a.value M c σ) := rfl

theorem value_unary_abs : (unary .abs a).value M c σ = M.abs (a.value M c σ) := rfl

theorem value_unary_indexSum (i : IndexId) : (unary (.indexSum i) a).value M c σ =
    ∑ j ∈ Finset.range ((a.free.dim? i).getD 0), a.value M c (σ.bind [i] [j]) := rfl

theorem value_unary_indexed (is : List Index) :
    (unary (.indexed is) a).value M c σ = a.value M (is.map σ.resolve) σ := rfl

theorem value_unary_componentTensor (ids : List IndexId) :
    (unary (.componentTensor ids) a).value M c σ = a.value M [] (σ.bind ids c) := rfl

theorem value_unary_labelled (number : Nat) :
    (unary (.labelled number) a).value M c σ = a.value M c σ := rfl

theorem value_binary_sum :
    (binary .sum a b).value M c σ = a.value M c σ + b.value M c σ := rfl

theorem value_binary_product : (binary .product a b).value M c σ =
    a.value M (c.take a.rank) σ * b.value M (c.take b.rank) σ := rfl

theorem value_binary_division :
    (binary .division a b).value M c σ = M.quotient (a.value M c σ) (b.value M [] σ) := rfl

theorem value_binary_power :
    (binary .power a b).value M c σ = M.power (a.value M c σ) (b.value M [] σ) := rfl

/-- The modifiers other than indexing have the meaning that the model gives them. -/
theorem value_modifier {op : UnaryOp} (hop : op.isModifier) (hi : op.indices? = none) :
    (unary op a).value M c σ = M.modified op a (a.value M) c σ := by
  cases op with
  | indexed is => cases hi
  | restricted | grad | referenceGrad | spatialDerivative | averaged => rfl
  | math | abs | indexSum | componentTensor | labelled => cases hop

end Nodes

/-- The value of an item is that of the list at its position. -/
theorem itemValue_eq (M : Model R A) (items : List (Expr R)) (k : Nat) (c : List Nat) (σ : Env) :
    itemValue M items k c σ = ((items[k]?).map fun item => value M item c σ).getD 0 := by
  induction items generalizing k with
  | nil => rfl
  | cons item items ih =>
    cases k with
    | zero => rfl
    | succ k => exact ih k

/-- The first index of a stack selects an item. -/
theorem value_listTensor (M : Model R A) (items : List (Expr R)) (k : Nat) (c : List Nat)
    (σ : Env) : (listTensor items).value M (k :: c) σ =
      ((items[k]?).map fun item => item.value M c σ).getD 0 :=
  itemValue_eq M items k c σ

end Expr

end WeakForm
