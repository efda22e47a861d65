import WeakForm.Decimal.Reading
import WeakForm.ModifiedTerminal
import WeakForm.Monomial.Factor
import WeakForm.Table.Basis

/-!
# Errors

Why an integral has no plan. Some errors say that an integrand uses what plans
cannot represent; others say that a pass was given what an earlier pass should
have ruled out (`Error.isInvariantViolation`). Each error carries its cause; the
wording is in `WeakForm.Error.Message`.
-/

namespace WeakForm

/-- Why an expression is no sum of monomials. -/
inductive ExtractionFault (R : Type) where
  /-- An indexing that does not fill the open slots. -/
  | slotCount (slots indices : Nat)
  /-- A component tensor over a monomial with open slots. -/
  | openSlots
  /-- The derivative of a monomial that is not a single factor. -/
  | factorCount (found : Nat)
  | negativeExponent (n : Int)
  | exponent (e : Expr R)
  | unsupported (e : Expr R)

/-- What basis values are missing. -/
inductive MissingBasis (R : Type) where
  | key (k : BasisKey)
  | permutations (k : BasisKey) (found expected : Nat)
  | noEntities (element : ElementId)
  | shapes (element : ElementId)
  | component (element : ElementId) (component : Nat)
  | notNumbered (element : ElementId)
  | argument (e : Expr R)

/-- Why a parameter is rejected. -/
inductive ParameterFault where
  /-- No parameter has the key. -/
  | unknownKey
  | number (fault : Decimal.ReadFault)
  /-- A tolerance that is negative, infinite or no number. -/
  | tolerance
  deriving DecidableEq, Repr

/-- Why a pass failed. -/
inductive Error (R : Type) where
  /-- A rule of construction was broken. -/
  | breach (b : Breach R)
  /-- The modifiers of an expression describe no quantity. -/
  | modifiers (fault : ModifierFault) (e : Expr R)
  /-- A factor of a monomial is restricted twice. -/
  | restrictedFactor (f : Factor R)
  /-- A node that scalar graphs do not have. -/
  | unexpectedNode (e : Expr R)
  | extraction (fault : ExtractionFault R)
  /-- An argument in a divisor. -/
  | argumentDivisor (e : Expr R)
  /-- An argument under an operator that is not linear. -/
  | nonlinear (e : Expr R)
  /-- A sum of terms with different numbers of arguments. -/
  | mixedRank (left right : Nat) (e : Expr R)
  /-- A term whose number of arguments is not the rank of the form. -/
  | rankMismatch (expected found : Nat) (e : Expr R)
  /-- Different tables under one name. -/
  | tableCollision (name : String)
  | missingBasis (cause : MissingBasis R)
  /-- A terminal without a table that is not constant on each cell. -/
  | unclassified (e : Expr R)
  | invalidParameter (key value : String) (fault : ParameterFault)

namespace Error

variable {R : Type}

/-- The error says that an earlier pass went wrong, not that the input is unsupported. -/
def isInvariantViolation : Error R → Bool
  | unexpectedNode _ | mixedRank _ _ _ | tableCollision _ | unclassified _ => true
  | _ => false

end Error

/-- The result of a pass. -/
abbrev Result (R : Type) (α : Type) := Except (Error R) α

/-- A broken rule of construction is an error of the pass. -/
instance {R : Type} : MonadLift (Except (Breach R)) (Except (Error R)) where
  monadLift
    | .ok a => .ok a
    | .error b => .error (.breach b)

/-- The descriptor of a scalar expression, if it is a modified terminal. -/
def Expr.analyse {R : Type} (e : Expr R) : Result R (Option (ModifiedTerminal R)) :=
  match e.describe with
  | .ok m => .ok m
  | .error fault => .error (.modifiers fault e)

end WeakForm
