import WeakForm.Error
import WeakForm.Expr.ListItems
import WeakForm.Monomial.Basic

/-!
# Extraction of monomials

An integrand that is polynomial in its functions is written as a sum of monomials.
Free indices that remain in a monomial are summed implicitly.

* an indexing replaces the open slots of each monomial, or where there are none,
  gives its factors their components;
* a component tensor opens slots;
* a derivative applies to a single factor, and a restriction to all.

`Expr.extract` is the recursion, `Expr.monomials` the whole, after list items are
selected.
-/

namespace WeakForm

variable {R : Type}

namespace Factor

/-- An index replaced by that which stands in the place of its slot. -/
def fillSlot (slots : List IndexId) (is : List Index) : Index → Index
  | .fixed p => .fixed p
  | .free i => ((slots.zip is).lookup i).getD (.free i)

/-- The factor with slots replaced by indices. -/
def fillSlots (f : Factor R) (slots : List IndexId) (is : List Index) : Factor R :=
  { f with
    components := f.components.map (fillSlot slots is)
    derivatives := f.derivatives.map (fillSlot slots is) }

/-- The factor indexed: through open slots, or else by its own components. -/
def index (f : Factor R) (slots : Option (List IndexId)) (is : List Index) :
    Result R (Factor R) :=
  match slots with
  | none => .ok { f with components := is }
  | some slots =>
    if slots.length = is.length then .ok (f.fillSlots slots is)
    else .error (.extraction (.slotCount slots.length is.length))

/-- The factor on one side of an interior facet. -/
def restrict (f : Factor R) (side : Side) : Result R (Factor R) :=
  match f.restriction with
  | none => .ok { f with restriction := some side }
  | some _ => .error (.restrictedFactor f)

end Factor

namespace Monomial

def index (m : Monomial R) (is : List Index) : Result R (Monomial R) := do
  return { m with factors := ← m.factors.mapM (·.index m.slots is), slots := none }

def openSlots (m : Monomial R) (ids : List IndexId) : Result R (Monomial R) :=
  match m.slots with
  | none => .ok { m with slots := some ids }
  | some _ => .error (.extraction .openSlots)

def derivative (m : Monomial R) (is : List Index) : Result R (Monomial R) :=
  match m.factors with
  | [f] => .ok { m with factors := [{ f with derivatives := f.derivatives ++ is }] }
  | fs => .error (.extraction (.factorCount fs.length))

def restrict (m : Monomial R) (side : Side) : Result R (Monomial R) := do
  return { m with factors := ← m.factors.mapM (·.restrict side) }

end Monomial

namespace Expr

/-- The count that an exponent stands for. -/
def exponent (e : Expr R) : Result R Nat :=
  match e with
  -- a literal zero is built as this
  | leaf (.zero [] []) => .ok 0
  | leaf (.literal (.int n)) =>
    if 0 ≤ n then .ok n.toNat else .error (.extraction (.negativeExponent n))
  | e => .error (.extraction (.exponent e))

variable [Scalar R]

/-- The monomials of an expression. -/
def extract (e : Expr R) : Result R (MonomialSum R) :=
  match e with
  | leaf (.argument _) | leaf (.coefficient _) => .ok [Monomial.ofFactor { function := e }]
  | leaf (.literal v) => .ok [{ coefficient := v.value }]
  | leaf (.zero _ _) => .ok MonomialSum.zero
  | binary .sum a b => do return MonomialSum.add (← extract a) (← extract b)
  | binary .product a b => do return MonomialSum.mul (← extract a) (← extract b)
  | binary .power a b => do
    let n ← b.exponent
    return MonomialSum.pow (← extract a) n
  | unary (.indexSum _) a | unary (.labelled _) a => extract a
  | unary (.indexed is) a => do (← extract a).mapM (·.index is)
  | unary (.componentTensor ids) a => do (← extract a).mapM (·.openSlots ids)
  | unary (.spatialDerivative is) a => do (← extract a).mapM (·.derivative is)
  | unary (.restricted side) a => do (← extract a).mapM (·.restrict side)
  | e => .error (.extraction (.unsupported e))

variable [DecidableEq R]

/-- The monomials of an integrand. -/
def monomials (e : Expr R) : Result R (MonomialSum R) := do
  (← e.resolveItems).extract

end Expr

/-- The monomials of every integral of a form. -/
def Form.monomials [Scalar R] [DecidableEq R] (f : Form R) : Result R (MonomialForm R) :=
  f.integrals.mapM fun i => do return (← i.integrand.monomials, i.measure)

end WeakForm
