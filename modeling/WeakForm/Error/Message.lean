import WeakForm.Error
import WeakForm.Expr.Text
import WeakForm.Text.Quoted

/-!
# Error messages

The wording of every error, one function per kind of cause.
-/

namespace WeakForm

/-- Natural numbers in brackets, with commas between them. -/
def bracketed (ns : List Nat) : String :=
  "[" ++ commaSeparated (ns.map toString) ++ "]"

def Breach.message : Breach Float → String
  | unsortedZero => "zero free indices must be sorted and unique"
  | sumShapes a b => "sum of operands with different shapes: " ++ a.text ++ " + " ++ b.text
  | sumFree a b => "sum of operands with different free indices: " ++ a.text ++ " + " ++ b.text
  | tensorProduct a b => "product of two tensor-valued operands: " ++ a.text ++ " * " ++ b.text
  | indexDimensions c =>
    "free index " ++ Index.text (.free c.id) ++ " used with dimensions " ++ toString c.left ++
      " and " ++ toString c.right
  | tensorDivisor b => "division by tensor-valued expression " ++ b.text
  | divisionByZero a b => "division by zero: " ++ a.text ++ " / " ++ b.text
  | divisionFree a b => "division with mismatched free indices: " ++ a.text ++ " / " ++ b.text
  | tensorPower a => "power of tensor-valued expression " ++ a.text
  | exponentNotScalar b => "power with non-scalar exponent " ++ b.text
  | tensorFunction f a => f.name ++ "() of tensor-valued expression " ++ a.text
  | indexSumNotFree i a =>
    "index_sum over " ++ Index.text (.free i) ++ " which is not free in " ++ a.text
  | indexCount a indices =>
    "indexing " ++ a.text ++ " of rank " ++ toString a.rank ++ " with " ++ toString indices ++
      " indices"
  | indexRange position dim axis a =>
    "index " ++ toString position ++ " out of range " ++ toString dim ++ " on axis " ++
      toString axis ++ " of " ++ a.text
  | repeatedIndex i a => "repeated free index " ++ Index.text (.free i) ++ " indexing " ++ a.text
  | tensorOverTensor a => "component tensor over tensor-valued " ++ a.text
  | tensorOverFixed i a => "component tensor over fixed index " ++ i.text ++ " in " ++ a.text
  | tensorNotFree i a =>
    "component tensor over " ++ Index.text (.free i) ++ " which is not free in " ++ a.text
  | emptyListTensor => "list tensor without items"
  | listTensorShapes => "list tensor items with different shapes"
  | listTensorFree => "list tensor items with different free indices"
  | noDomain operator a => operator ++ " of " ++ a.text ++ " which has no domain"
  | directionRange position gdim =>
    "derivative direction " ++ toString position ++ " out of range " ++ toString gdim
  | directionNotNew i a =>
    "derivative direction " ++ Index.text (.free i) ++ " already free in " ++ a.text
  | dotVectors a b => "dot of non-matching vectors " ++ a.text ++ " and " ++ b.text
  | emptySum => "sum of an empty list"
  | emptyProduct => "product of an empty list"
  | indexValueCount => "index/value count mismatch"
  | nodeNotScalar a => "scalar graph node " ++ a.text ++ " is not scalar"
  | componentCounts found expected =>
    "element-wise operands with " ++ toString found ++ " and " ++ toString expected ++ " components"
  | indexMissing i => "index " ++ Index.text (.free i) ++ " missing from output free indices"
  | tableSize shape => "table values do not match shape " ++ bracketed shape
  | basisSize dofs components points =>
    "basis table values do not match [" ++ toString dofs ++ "][" ++ toString components ++ "][" ++
      toString points ++ "]"
  | weightCount => "one weight per quadrature point"
  | outOfBounds => "position out of bounds"
  | overflow => "arithmetic overflow"

def ModifierFault.message (fault : ModifierFault) (e : Expr Float) : String :=
  match fault with
  | restrictedTwice => "terminal restricted twice in " ++ e.text
  | averagedTwice => "terminal averaged twice in " ++ e.text
  | mixedFrames => "global and reference derivatives mixed in " ++ e.text

def ExtractionFault.message : ExtractionFault Float → String
  | slotCount slots indices =>
    "cannot extract monomials from indexed: " ++ toString slots ++ " index slots, " ++
      toString indices ++ " indices"
  | openSlots =>
    "cannot extract monomials from component_tensor: expecting scalar-valued expression"
  | factorCount found =>
    "cannot extract monomials from spatial_derivative: expecting a single factor, found " ++
      toString found
  | negativeExponent n => "cannot extract monomials from power: negative exponent " ++ toString n
  | exponent e => "cannot extract monomials from power: non-integer exponent " ++ e.text
  | unsupported e =>
    "cannot extract monomials from " ++ e.kind ++ ": unsupported in " ++ e.text

def Frame.text : Frame → String
  | reference => "Reference"
  | physical => "Physical"

def Averaging.text : Averaging → String
  | cell => "Cell"
  | facet => "Facet"

/-- What basis values are filed under, in words. -/
def BasisKey.text (k : BasisKey) : String :=
  "element " ++ toString k.element ++ " at " ++ toString k.points ++ " points, entity " ++
    toString k.entity ++ ", " ++ k.frame.text ++ " derivatives " ++ bracketed k.derivatives ++
    match k.averaged with
    | none => ""
    | some region => ", " ++ region.text ++ " average"

def MissingBasis.text : MissingBasis Float → String
  | key k => k.text
  | permutations k found expected =>
    k.text ++ " (" ++ toString found ++ " permutations, expected " ++ toString expected ++ ")"
  | noEntities element => "element " ++ toString element ++ " on no entities"
  | shapes element => "element " ++ toString element ++ " with inconsistent table shapes"
  | component element c => "element " ++ toString element ++ " component " ++ toString c
  | notNumbered element => "element " ++ toString element ++ " (not numbered)"
  | argument e => "argument " ++ e.text

def Decimal.ReadFault.message : ReadFault → String
  | emptyReal => "cannot parse float from empty string"
  | malformedReal => "invalid float literal"
  | emptyCount => "cannot parse integer from empty string"
  | invalidDigit => "invalid digit found in string"
  | tooLarge => "number too large to fit in target type"

def ParameterFault.message : ParameterFault → String
  | unknownKey => "unknown parameter"
  | number fault => fault.message
  | tolerance => "tolerance must be finite and non-negative"

/-- A factor is its function with components, derivatives and side after it. -/
def Factor.text (f : Factor Float) : String :=
  f.function.text ++
    (if f.components.isEmpty then "" else UnaryOp.closing (.indexed f.components)) ++
    (if f.derivatives.isEmpty then "" else UnaryOp.closing (.spatialDerivative f.derivatives)) ++
    match f.restriction with
    | none => ""
    | some side => UnaryOp.closing (.restricted side)

/-- The message of an error. -/
def Error.message : Error Float → String
  | breach b => b.message
  | modifiers fault e => fault.message e
  | restrictedFactor f => "terminal restricted twice in " ++ f.text
  | unexpectedNode e => "unexpected " ++ e.kind ++ " node in scalar graph: " ++ e.text
  | extraction fault => fault.message
  | argumentDivisor e => "argument-dependent divisor in " ++ e.text
  | nonlinear e => e.kind ++ " applied to argument-dependent operand in " ++ e.text
  | mixedRank left right e =>
    "sum mixes terms of argument rank " ++ toString left ++ " and " ++ toString right ++ " in " ++
      e.text
  | rankMismatch expected found e =>
    "term of argument rank " ++ toString found ++ " in a form of rank " ++ toString expected ++
      ": " ++ e.text
  | tableCollision name => "table values mismatch with same name " ++ name
  | missingBasis cause => "no basis table for " ++ cause.text
  | unclassified e => "terminal " ++ e.text ++ " has no table and is not cellwise constant"
  | invalidParameter key value fault =>
    "invalid parameter " ++ key ++ " = " ++ Text.quote value ++ ": " ++ fault.message

end WeakForm
