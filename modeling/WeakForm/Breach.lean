import WeakForm.Expr.Basic

/-!
# Breaches of construction rules

The functions of this library that build expressions, graphs and tables state
rules on what they are given. A caller that breaks one gets a `Breach`, which
names the rule and carries what broke it.
-/

namespace WeakForm

/-- A rule of construction that a caller broke, with what broke it. -/
inductive Breach (R : Type) where
  | unsortedZero
  | sumShapes (a b : Expr R)
  | sumFree (a b : Expr R)
  | tensorProduct (a b : Expr R)
  | indexDimensions (conflict : DimensionConflict)
  | tensorDivisor (b : Expr R)
  | divisionByZero (a b : Expr R)
  | divisionFree (a b : Expr R)
  | tensorPower (a : Expr R)
  | exponentNotScalar (b : Expr R)
  | tensorFunction (f : MathFunction) (a : Expr R)
  | indexSumNotFree (i : IndexId) (a : Expr R)
  | indexCount (a : Expr R) (indices : Nat)
  | indexRange (position dim axis : Nat) (a : Expr R)
  | repeatedIndex (i : IndexId) (a : Expr R)
  | tensorOverTensor (a : Expr R)
  | tensorOverFixed (index : Index) (a : Expr R)
  | tensorNotFree (i : IndexId) (a : Expr R)
  | emptyListTensor
  | listTensorShapes
  | listTensorFree
  | noDomain (operator : String) (a : Expr R)
  | directionRange (position gdim : Nat)
  | directionNotNew (i : IndexId) (a : Expr R)
  | dotVectors (a b : Expr R)
  | emptySum
  | emptyProduct
  | indexValueCount
  | nodeNotScalar (a : Expr R)
  | componentCounts (found expected : Nat)
  | indexMissing (i : IndexId)
  | tableSize (shape : List Nat)
  | basisSize (dofs components points : Nat)
  | weightCount
  /-- A position past the end of a list. -/
  | outOfBounds
  /-- A result past the range of its number type. -/
  | overflow

/-- A result, or the rule that was broken on the way to it. -/
abbrev Checked (R : Type) (α : Type) := Except (Breach R) α

end WeakForm
