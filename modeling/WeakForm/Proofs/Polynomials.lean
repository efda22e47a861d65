import WeakForm.Proofs.Monomials

/-!
# Polynomials have monomials

A polynomial is built from scalar functions and literals by sums, products, powers with a whole
exponent and labels. A function may stand under derivatives in fixed directions, and on one side
of a facet. The constructors fold on the way: a literal zero is no literal, an exponent of zero
is a zero, and a function that is constant on each cell has a derivative of zero.

Whatever they fold, monomials are extracted from every polynomial that is built. Nothing is
assumed of the functions: they are read by a valuation, which gives a value to a function, the
directions that it is derived in, and a side. In every commutative ring and for every valuation,
the monomials add up to the value of the expression, and that is the value of the polynomial.

* `FunctionTerm`, `PolynomialTerm` — the polynomials, with what they build and their value;
* `Valuation`, `Model.valued` — functions read by a valuation;
* `Expr.Reads`, `FunctionTerm.build_ok` — the expressions that are built for a function;
* `MonomialSum.valuation_mul`, `valuation_pow` — the arithmetic of sums of monomials;
* `Expands` — an expression whose monomials have its value, closed under construction;
* `build_monomials` — the monomials of a polynomial are found, and have its value.
-/

namespace WeakForm

/-! ## Valuations -/

/-- A value for every function, derived in directions, in the order in which they are applied,
and taken on a side or on none. -/
abbrev Valuation (R A : Type) := Expr R → List Index → Option Side → A

section Valuations

variable {R A : Type}

/-- The value of a factor. -/
def Factor.valuation (v : Valuation R A) (f : Factor R) : A :=
  v f.function f.derivatives f.restriction

variable [CommRing A]

/-- The coefficient times the values of the factors. -/
def Monomial.valuation (M : Model R A) (v : Valuation R A) (m : Monomial R) : A :=
  M.number m.coefficient * (m.factors.map (·.valuation v)).prod

/-- The sum of the values of the monomials. -/
def MonomialSum.valuation (M : Model R A) (v : Valuation R A) (ms : MonomialSum R) : A :=
  (ms.map (·.valuation M v)).sum

end Valuations

namespace Expr

variable {R : Type}

/-- The factor that a function under derivatives and restrictions is read as. -/
def factor : Expr R → Factor R
  | unary (.spatialDerivative is) a =>
    { a.factor with derivatives := a.factor.derivatives ++ is }
  | unary (.restricted side) a => { a.factor with restriction := some side }
  | e => { function := e }

end Expr

namespace Model

variable {R A : Type} {M : Model R A} {v : Valuation R A}

/-- The model in which functions are read by a valuation. -/
def valued (M : Model R A) (v : Valuation R A) : Model R A where
  number := M.number
  quotient := M.quotient
  power := M.power
  math := M.math
  abs := M.abs
  terminal t _ := v (.leaf t) [] none
  modified op a _ _ _ := (Expr.unary op a).factor.valuation v

variable [Scalar R] [CommRing A]

theorem Exact.valued (hM : M.Exact) : (M.valued v).Exact :=
  ⟨hM.ofInt, hM.add, hM.mul, hM.isZero, hM.isOne⟩

theorem ExactPowers.valued (hpow : M.ExactPowers) : (M.valued v).ExactPowers :=
  ⟨hpow.nat, hpow.pow⟩

end Model

/-! ## Functions -/

/-- A scalar function under derivatives in fixed directions, and restricted once or not. -/
inductive FunctionTerm : (restricted : Bool) → Type
  | argument (a : Argument) (hscalar : a.element.shape = []) : FunctionTerm false
  | coefficient (c : Coefficient) (hscalar : c.element.shape = []) : FunctionTerm false
  | derivative {restricted : Bool} (directions : List Nat) (f : FunctionTerm restricted) :
      FunctionTerm restricted
  | onSide (side : Side) (f : FunctionTerm false) : FunctionTerm true

namespace FunctionTerm

variable {R A : Type} {restricted : Bool}

/-- The function itself. -/
def function : {restricted : Bool} → FunctionTerm restricted → Expr R
  | _, argument a _ => .argument a
  | _, coefficient c _ => .coefficient c
  | _, derivative _ f => f.function
  | _, onSide _ f => f.function

/-- The directions of all derivatives, in the order in which they are applied. -/
def directions : {restricted : Bool} → FunctionTerm restricted → List Index
  | _, argument _ _ | _, coefficient _ _ => []
  | _, derivative ds f => f.directions ++ ds.map .fixed
  | _, onSide _ f => f.directions

def side? : {restricted : Bool} → FunctionTerm restricted → Option Side
  | _, argument _ _ | _, coefficient _ _ => none
  | _, derivative _ f => f.side?
  | _, onSide side _ => some side

theorem side?_of_unrestricted : (f : FunctionTerm false) → f.side? = none
  | argument _ _ | coefficient _ _ => rfl
  | derivative _ f => f.side?_of_unrestricted

/-- The expression that is built. -/
def build : {restricted : Bool} → FunctionTerm restricted → Checked R (Expr R)
  | _, argument a _ => .ok (.argument a)
  | _, coefficient c _ => .ok (.coefficient c)
  | _, derivative ds f => do (← f.build).derivative (ds.map .fixed)
  | _, onSide side f => do return (← f.build).restrict side

/-- A derivative of a function that is constant on each cell. -/
def Vanishes (R : Type) (f : FunctionTerm restricted) : Prop :=
  (f.function : Expr R).isCellwiseConstant ∧ f.directions ≠ []

instance (f : FunctionTerm restricted) : Decidable (f.Vanishes R) :=
  inferInstanceAs (Decidable (_ ∧ _))

/-- The value of a function: zero where it vanishes, and otherwise that of the valuation. -/
def value [Zero A] (v : Valuation R A) (f : FunctionTerm restricted) : A :=
  if f.Vanishes R then 0 else v f.function f.directions f.side?

/-- The factor that a function stands for. -/
def factor (f : FunctionTerm restricted) : Factor R where
  function := f.function
  derivatives := f.directions
  restriction := f.side?

end FunctionTerm

namespace Expr

variable {R A : Type}

/-- A scalar function under derivatives and at most one restriction, with the factor that it
is. -/
inductive Reads : Expr R → Factor R → Prop
  | argument {a : Argument} (hscalar : a.element.shape = []) :
      Reads (argument a) { function := argument a }
  | coefficient {c : Coefficient} (hscalar : c.element.shape = []) :
      Reads (coefficient c) { function := coefficient c }
  | derivative {e : Expr R} {f : Factor R} (ds : List Nat) (h : Reads e f) :
      Reads (unary (.spatialDerivative (ds.map .fixed)) e)
        { f with derivatives := f.derivatives ++ ds.map .fixed }
  | onSide {e : Expr R} {f : Factor R} (side : Side) (h : Reads e f)
      (hnone : f.restriction = none) :
      Reads (unary (.restricted side) e) { f with restriction := some side }

namespace Reads

variable {e : Expr R} {f : Factor R}

/-- The factor of an expression is the function with its modifiers. -/
theorem factor_eq (h : Reads e f) : e.factor = f := by
  induction h with
  | argument | coefficient => rfl
  | derivative is _ ih => rw [factor, ih]
  | onSide side _ _ ih => rw [factor, ih]

theorem isListFree (h : Reads e f) : e.isListFree := by
  induction h with
  | argument | coefficient => rfl
  | derivative | onSide => assumption

theorem not_constant (h : Reads e f) : e.isConstantValue = false := by
  cases h <;> rfl

/-- A derivative in fixed directions is as scalar as its operand. -/
theorem attributes_directions (ds : List Nat) (h : e.isScalar) :
    UnaryOp.shape (.spatialDerivative (ds.map .fixed)) e.signature = [] ∧
      UnaryOp.free (.spatialDerivative (ds.map .fixed)) e.signature = [] := by
  obtain ⟨hshape, hfree⟩ := isScalar_iff.mp h
  have hnone : (ds.map Index.fixed).filterMap Index.id? = [] := by
    rw [List.filterMap_map, List.filterMap_eq_nil_iff]
    exact fun _ _ => rfl
  refine ⟨hshape, ?_⟩
  show e.free.union (Signature.directionFree (ds.map .fixed) e.signature.gdim) = []
  rw [hfree, FreeIndices.nil_union, Signature.directionFree, hnone]
  exact FreeIndices.sort_nil

/-- A modified function is scalar. -/
theorem isScalar (h : Reads e f) : e.isScalar := by
  induction h with
  | argument hscalar | coefficient hscalar =>
    exact isScalar_iff.mpr ⟨(shape_leaf _).trans hscalar, free_leaf _⟩
  | derivative ds _ ih =>
    obtain ⟨hshape, hfree⟩ := attributes_directions ds ih
    exact isScalar_iff.mpr ⟨(shape_unary _ _).trans hshape, (free_unary _ _).trans hfree⟩
  | onSide side _ _ ih =>
    obtain ⟨hshape, hfree⟩ := isScalar_iff.mp ih
    exact isScalar_iff.mpr ⟨(shape_unary _ _).trans hshape, (free_unary _ _).trans hfree⟩

/-- Neither a derivative nor a restriction changes whether a function is constant. -/
theorem isCellwiseConstant (h : Reads e f) :
    e.isCellwiseConstant = f.function.isCellwiseConstant := by
  induction h with
  | argument | coefficient => rfl
  | derivative is _ ih => simpa [Expr.isCellwiseConstant, UnaryOp.signature] using ih
  | onSide side _ _ ih => simpa [Expr.isCellwiseConstant, UnaryOp.signature] using ih

variable [Scalar R]

/-- The only monomial is the factor. -/
theorem extract (h : Reads e f) : e.extract = .ok [Monomial.ofFactor f] := by
  induction h with
  | argument | coefficient => rfl
  | derivative is _ ih => rw [Expr.extract, ih]; rfl
  | @onSide e f side _ hnone ih =>
    -- the only factor is not restricted yet
    have hfactor : f.restrict side = .ok { f with restriction := some side } := by
      rw [Factor.restrict, hnone]
    have hmonomial : (Monomial.ofFactor f).restrict side =
        .ok (Monomial.ofFactor { f with restriction := some side }) := by
      simp only [Monomial.restrict, Monomial.ofFactor, List.mapM_cons, hfactor]
      rfl
    rw [Expr.extract, ih]
    simp only [bind, Except.bind, List.mapM_cons, hmonomial]
    rfl

/-- A modified function has the value of its factor. -/
theorem value [CommRing A] (h : Reads e f) (M : Model R A) (v : Valuation R A) (σ : Env) :
    e.value (M.valued v) [] σ = f.valuation v := by
  rw [← h.factor_eq]
  cases h with
  | argument | coefficient | derivative | onSide => rfl

end Reads

end Expr

namespace FunctionTerm

open WeakForm.Expr

variable {R A : Type} {restricted : Bool} {e : Expr R}

/-- What is built for a function: zero where it vanishes, and otherwise the function as it is
written. -/
theorem build_ok {f : FunctionTerm restricted} (h : f.build = .ok e) :
    (f.Vanishes R ∧ e = zero []) ∨ (¬f.Vanishes R ∧ Reads e f.factor) := by
  induction f generalizing e with
  | argument a hscalar =>
    cases h
    exact .inr ⟨fun hv => hv.2 rfl, .argument hscalar⟩
  | coefficient c hscalar =>
    cases h
    exact .inr ⟨fun hv => hv.2 rfl, .coefficient hscalar⟩
  | derivative ds f ih =>
    obtain ⟨a, ha, h⟩ := bind_eq_ok.mp h
    rcases derivative_built h with ⟨hnil, rfl⟩ | ⟨hne, d, hd, -, hr⟩
    · -- a derivative in no direction is none
      have hdirections : (derivative ds f).directions = f.directions := by
        rw [directions, hnil, List.append_nil]
      have hvanishes : (derivative ds f).Vanishes R ↔ f.Vanishes R := by
        rw [Vanishes, Vanishes, hdirections, function]
      have hfactor : (derivative ds f).factor = (f.factor : Factor R) := by
        rw [factor, factor, hdirections, function, side?]
      rw [hvanishes, hfactor]
      exact ih ha
    · -- zero has no derivative, for it has no domain
      rcases ih ha with ⟨-, rfl⟩ | ⟨-, hreads⟩
      · cases hd.symm.trans (domain?_of_isConstantValue rfl)
      have hdirections : (derivative ds f).directions ≠ [] :=
        List.append_ne_nil_of_right_ne_nil _ hne
      have hconstant : a.isCellwiseConstant = (f.function : Expr R).isCellwiseConstant :=
        hreads.isCellwiseConstant
      cases hr with
      | zero hc =>
        -- the function is constant on cells, so the derivative is zero
        obtain ⟨hshape, hfree⟩ := Reads.attributes_directions ds hreads.isScalar
        exact .inl ⟨⟨hconstant.symm.trans hc, hdirections⟩, by rw [zeroOf, hshape, hfree, zero]⟩
      -- otherwise the derivative is taken
      | node hc =>
        refine .inr ⟨fun hv => ?_, hreads.derivative ds⟩
        have hv : (f.function : Expr R).isCellwiseConstant := hv.1
        rw [← hconstant, hc] at hv
        cases hv
  | onSide side f ih =>
    obtain ⟨a, ha, h⟩ := bind_eq_ok.mp h
    obtain rfl : a.restrict side = e := Except.ok.inj h
    rcases ih ha with ⟨hv, rfl⟩ | ⟨hv, hreads⟩
    -- zero is not restricted
    · exact .inl ⟨hv, rfl⟩
    · rw [restrict, hreads.not_constant]
      exact .inr ⟨hv, hreads.onSide side f.side?_of_unrestricted⟩

variable [Scalar R]

/-- What is built is a scalar and has the value of the function. -/
theorem value_build [CommRing A] {f : FunctionTerm restricted} (h : f.build = .ok e)
    (M : Model R A) (v : Valuation R A) (σ : Env) :
    e.value (M.valued v) [] σ = f.value v := by
  rcases build_ok h with ⟨hv, rfl⟩ | ⟨hv, hreads⟩
  · rw [value, if_pos hv]
    exact value_zero _ _ _ _ _
  · rw [value, if_neg hv, hreads.value]
    rfl

end FunctionTerm

/-! ## Sums of monomials -/

section Arithmetic

variable {R A : Type} [CommRing A] {M : Model R A} {v : Valuation R A}

/-- The product of two monomials joins their factors. -/
theorem Monomial.valuation_mul [Scalar R] (hM : M.Exact) (m n : Monomial R) :
    (m.mul n).valuation M v = m.valuation M v * n.valuation M v := by
  simp only [Monomial.valuation, Monomial.mul, hM.mul, List.map_append, List.prod_append]
  ring

namespace MonomialSum

theorem valuation_append (ms ns : MonomialSum R) :
    valuation M v (ms ++ ns) = valuation M v ms + valuation M v ns := by
  rw [valuation, valuation, valuation, List.map_append, List.sum_append]

theorem valuation_number (x : R) : valuation M v [{ coefficient := x }] = M.number x := by
  rw [valuation, List.map_singleton, List.sum_singleton, Monomial.valuation, List.map_nil,
    List.prod_nil, mul_one]

variable [Scalar R]

/-- Distributivity, one monomial of the left sum after the other. -/
theorem valuation_mul (hM : M.Exact) (ms ns : MonomialSum R) :
    valuation M v (ms.mul ns) = valuation M v ms * valuation M v ns := by
  induction ms with
  | nil => exact (zero_mul _).symm
  | cons m ms ih =>
    -- The products of one monomial with all of `ns` are one row of the whole product.
    have hrow : valuation M v (ns.map m.mul) = m.valuation M v * valuation M v ns := by
      rw [valuation, valuation, List.map_map, ← List.sum_map_mul_left]
      refine congrArg List.sum (List.map_congr_left fun n _ => ?_)
      exact Monomial.valuation_mul hM m n
    calc valuation M v (ns.map m.mul ++ MonomialSum.mul ms ns)
        = m.valuation M v * valuation M v ns + valuation M v ms * valuation M v ns := by
          rw [valuation_append, hrow, ih]
      _ = valuation M v (m :: ms) * valuation M v ns := by
          rw [← add_mul]
          rfl

/-- A power of a sum of monomials has the power of its value. -/
theorem valuation_pow (hM : M.Exact) (ms : MonomialSum R) (n : Nat) :
    valuation M v (ms.pow n) = valuation M v ms ^ n := by
  induction n with
  | zero =>
    rw [pow_zero]
    exact (valuation_number Scalar.one).trans hM.one
  | succ n ih => rw [pow_succ, ← ih, ← valuation_mul hM]; rfl

end MonomialSum

end Arithmetic

/-! ## Expressions whose monomials have their value -/

namespace Expr

variable {R : Type} [Scalar R] {a b e r : Expr R}

/-- A scalar from which monomials are extracted that have its value, for every valuation of its
functions. -/
structure Expands (e : Expr R) : Prop where
  isScalar : e.isScalar
  isListFree : e.isListFree
  extract : ∃ ms, e.extract = .ok ms ∧
    ∀ {A : Type} [CommRing A] {M : Model R A}, M.Exact → M.ExactPowers →
      ∀ (v : Valuation R A) (σ : Env), ms.valuation M v = e.value (M.valued v) [] σ

/-- A literal expands to one monomial, and zero to none. -/
theorem expands_constant (hc : e.isConstantValue) (hs : e.isScalar) : Expands e := by
  unfold isConstantValue at hc
  split at hc
  · next l =>
    refine ⟨hs, rfl, [{ coefficient := l.value }], rfl, fun hM _ v σ => ?_⟩
    exact MonomialSum.valuation_number l.value
  · exact ⟨hs, rfl, [], rfl, fun hM _ v σ => (value_zero _ _ _ _ _).symm⟩
  · cases hc

/-- A modified function expands to one monomial. -/
theorem Reads.expands {f : Factor R} (h : Reads e f) : Expands e := by
  refine ⟨h.isScalar, h.isListFree, _, h.extract, fun {A _ M} hM _ v σ => ?_⟩
  rw [h.value, MonomialSum.valuation, List.map_singleton, List.sum_singleton, Monomial.valuation,
    Monomial.ofFactor, hM.one, one_mul, List.map_singleton, List.prod_singleton]

/-- What is built of two operands expands if the node does: operands and constants do. -/
theorem Expands.apply (ha : Expands a) (op : BinaryOp) (hb : Expands b) (h : op.apply a b = .ok r)
    (hnode : Expands (binary op a b)) : Expands r := by
  have hr := isScalar_apply₂ ha.isScalar hb.isScalar h
  rcases binary_outcome h with rfl | rfl | hc | rfl
  · exact ha
  · exact hb
  · exact expands_constant hc hr
  · exact hnode

/-- A sum expands with its summands. -/
theorem Expands.sum (ha : Expands a) (hb : Expands b) : Expands (binary .sum a b) := by
  obtain ⟨ms, hms, hvalue⟩ := ha.extract
  obtain ⟨ns, hns, hvalue'⟩ := hb.extract
  refine ⟨isScalar_binary .sum ha.isScalar hb.isScalar,
    Bool.and_eq_true_iff.mpr ⟨ha.isListFree, hb.isListFree⟩, ms.add ns, ?_, fun hM hpow v σ => ?_⟩
  · rw [Expr.extract, hms, hns]
    rfl
  · rw [value_binary_sum, ← hvalue hM hpow, ← hvalue' hM hpow]
    exact MonomialSum.valuation_append ms ns

/-- A product expands with its factors. -/
theorem Expands.product (ha : Expands a) (hb : Expands b) : Expands (binary .product a b) := by
  obtain ⟨ms, hms, hvalue⟩ := ha.extract
  obtain ⟨ns, hns, hvalue'⟩ := hb.extract
  refine ⟨isScalar_binary .product ha.isScalar hb.isScalar,
    Bool.and_eq_true_iff.mpr ⟨ha.isListFree, hb.isListFree⟩, ms.mul ns, ?_, fun hM hpow v σ => ?_⟩
  · rw [Expr.extract, hms, hns]
    rfl
  · rw [value_binary_product, List.take_nil, List.take_nil, ← hvalue hM hpow,
      ← hvalue' hM hpow, MonomialSum.valuation_mul hM]

/-- An exponent of zero is no literal, but it counts as one. -/
theorem exponent_int (n : Nat) : (int n : Expr R).exponent = .ok n := by
  cases n with
  | zero => rfl
  | succ n =>
    have hzero : (Literal.int (n + 1 : Nat) : Literal R).isZero = false := by
      rw [Literal.isZero, beq_eq_false_iff_ne]
      omega
    have hint : (int (n + 1 : Nat) : Expr R) = leaf (.literal (.int (n + 1 : Nat))) := by
      rw [int, literal, hzero]
      rfl
    rw [hint, exponent, if_pos (Int.natCast_nonneg _), Int.toNat_natCast]

theorem expands_int (n : Nat) : Expands (int n : Expr R) :=
  expands_constant (isConstantValue_literal _) (isScalar_iff.mpr (attributes_literal _))

theorem value_int {A : Type} [CommRing A] {M : Model R A} (hM : M.Exact) (n : Nat) (c : List Nat)
    (σ : Env) : (int n : Expr R).value M c σ = n := by
  rw [int, value_literal hM, hM.literal_int, Int.cast_natCast]

/-- A power expands with its base. -/
theorem Expands.power (ha : Expands a) (n : Nat) : Expands (binary .power a (int n)) := by
  have hn : Expands (int n : Expr R) := expands_int n
  obtain ⟨ms, hms, hvalue⟩ := ha.extract
  refine ⟨isScalar_binary .power ha.isScalar hn.isScalar,
    Bool.and_eq_true_iff.mpr ⟨ha.isListFree, hn.isListFree⟩, ms.pow n, ?_, fun hM hpow v σ => ?_⟩
  · rw [Expr.extract, exponent_int, hms]
    rfl
  · rw [value_binary_power, value_int hM.valued, hpow.valued.nat, ← hvalue hM hpow,
      MonomialSum.valuation_pow hM]

/-- A label keeps the expansion. -/
theorem Expands.label (number : Nat) (ha : Expands a) : Expands (a.label number) := by
  obtain ⟨ms, hms, hvalue⟩ := ha.extract
  obtain ⟨hshape, hfree⟩ := isScalar_iff.mp ha.isScalar
  have hs : (a.label number).isScalar :=
    isScalar_iff.mpr ⟨(shape_unary _ _).trans hshape, (free_unary _ _).trans hfree⟩
  exact ⟨hs, ha.isListFree, ms, hms, hvalue⟩

end Expr

/-! ## Polynomials -/

/-- A polynomial of scalar functions. -/
inductive PolynomialTerm (R : Type) where
  | function {restricted : Bool} (f : FunctionTerm restricted)
  | literal (l : Literal R)
  | sum (p q : PolynomialTerm R)
  | product (p q : PolynomialTerm R)
  | power (p : PolynomialTerm R) (n : Nat)
  | labelled (number : Nat) (p : PolynomialTerm R)

namespace PolynomialTerm

open WeakForm.Expr

variable {R A : Type} [Scalar R]

/-- The expression that the constructors build. -/
def build : PolynomialTerm R → Checked R (Expr R)
  | function f => f.build
  | literal l => .ok (.literal l)
  | sum p q => do (← p.build).add (← q.build)
  | product p q => do (← p.build).mul (← q.build)
  | power p n => do (← p.build).pow (int n)
  | labelled number p => do return (← p.build).label number

/-- The value of a polynomial in a ring. -/
def value [CommRing A] (M : Model R A) (v : Valuation R A) : PolynomialTerm R → A
  | function f => f.value v
  | literal l => M.literal l
  | sum p q => p.value M v + q.value M v
  | product p q => p.value M v * q.value M v
  | power p n => p.value M v ^ n
  | labelled _ p => p.value M v

variable {p : PolynomialTerm R} {e : Expr R}

/-- What is built for a polynomial expands, whichever way the constructors fold. -/
theorem expands_build (h : p.build = .ok e) : Expands e := by
  induction p generalizing e with
  | function f =>
    rcases FunctionTerm.build_ok h with ⟨-, rfl⟩ | ⟨-, hreads⟩
    · exact expands_constant rfl isScalar_zero
    · exact hreads.expands
  | literal l =>
    cases h
    exact expands_constant (isConstantValue_literal l) (isScalar_iff.mpr (attributes_literal l))
  -- operators expand over operands that do
  | sum p q ihp ihq =>
    obtain ⟨a, ha, h⟩ := bind_eq_ok.mp h
    obtain ⟨b, hb, h⟩ := bind_eq_ok.mp h
    exact (ihp ha).apply .sum (ihq hb) h ((ihp ha).sum (ihq hb))
  | product p q ihp ihq =>
    obtain ⟨a, ha, h⟩ := bind_eq_ok.mp h
    obtain ⟨b, hb, h⟩ := bind_eq_ok.mp h
    exact (ihp ha).apply .product (ihq hb) h ((ihp ha).product (ihq hb))
  | power p n ih =>
    obtain ⟨a, ha, h⟩ := bind_eq_ok.mp h
    exact (ih ha).apply .power (expands_int n) h ((ih ha).power n)
  | labelled number p ih =>
    obtain ⟨a, ha, h⟩ := bind_eq_ok.mp h
    -- a label is kept around the expression
    obtain rfl : a.label number = e := Except.ok.inj h
    exact (ih ha).label number

/-- What is built for a polynomial has its value. -/
theorem value_build [CommRing A] {M : Model R A} (hM : M.Exact) (hpow : M.ExactPowers)
    (v : Valuation R A) (h : p.build = .ok e) (σ : Env) :
    e.value (M.valued v) [] σ = p.value M v := by
  induction p generalizing e with
  | function f => exact FunctionTerm.value_build h M v σ
  | literal l =>
    cases h
    exact value_literal hM.valued l [] σ
  | sum p q ihp ihq =>
    obtain ⟨a, ha, h⟩ := bind_eq_ok.mp h
    obtain ⟨b, hb, h⟩ := bind_eq_ok.mp h
    rw [value_add hM.valued h, ihp ha, ihq hb, value]
  | product p q ihp ihq =>
    obtain ⟨a, ha, h⟩ := bind_eq_ok.mp h
    obtain ⟨b, hb, h⟩ := bind_eq_ok.mp h
    -- both factors are scalar
    rw [value_mul_scalar hM.valued (expands_build ha).isScalar (expands_build hb).isScalar h,
      ihp ha, ihq hb, value]
  | power p n ih =>
    obtain ⟨a, ha, h⟩ := bind_eq_ok.mp h
    -- the exponent is a number
    rw [value_pow_of hM.valued hpow.valued.power_one (hpow.valued.literal_pow hM.valued) h,
      value_int hM.valued, hpow.valued.nat, ih ha, value]
  | labelled number p ih =>
    obtain ⟨a, ha, h⟩ := bind_eq_ok.mp h
    obtain rfl : a.label number = e := Except.ok.inj h
    exact (value_unary_labelled (M.valued v) a [] σ number).trans (ih ha)

/-- **Extraction is total and exact on polynomials.** Monomials are extracted from every
polynomial that the constructors build, and in every ring and for every valuation of the
functions they add up to the value of the expression, which is that of the polynomial. -/
theorem build_monomials [DecidableEq R] (h : p.build = .ok e) : ∃ ms, e.monomials = .ok ms ∧
    ∀ {A : Type} [CommRing A] {M : Model R A}, M.Exact → M.ExactPowers →
      ∀ (v : Valuation R A) (σ : Env), ms.valuation M v = e.value (M.valued v) [] σ ∧
        e.value (M.valued v) [] σ = p.value M v := by
  have hexpands := expands_build h
  obtain ⟨ms, hms, hvalue⟩ := hexpands.extract
  refine ⟨ms, ?_, fun hM hpow v σ => ⟨hvalue hM hpow v σ, value_build hM hpow v h σ⟩⟩
  rw [monomials_of_isListFree hexpands.isListFree]
  exact hms

/-! ### The square of a derivative and a number -/

namespace Square

/-- A scalar function on triangles. -/
def u : Coefficient :=
  ⟨0, ⟨1, 1, []⟩, .ofCell .triangle 0⟩

/-- `∂₀ u` on the positive side. -/
def slope : FunctionTerm true :=
  .onSide .positive (.derivative [0] (.coefficient u rfl))

/-- `(∂₀ u + 2)²`. -/
def square : PolynomialTerm ℚ :=
  .power (.sum (.function slope) (.literal (.int 2))) 2

def expression : Expr ℚ :=
  binary .power (binary .sum (unary (.restricted .positive)
    (unary (.spatialDerivative [.fixed 0]) (.coefficient u))) (leaf (.literal (.int 2))))
    (leaf (.literal (.int 2)))

end Square

/-- The square of a slope plus two is built and has the value of its monomials. -/
theorem build_monomials_square : Square.square.build = .ok Square.expression ∧
    ∃ ms, Square.expression.monomials = .ok ms ∧ ∀ (v : Valuation ℚ ℚ) (σ : Env),
      ms.valuation (.still fun _ _ => 0) v =
          Square.expression.value (Model.valued (.still fun _ _ => 0) v) [] σ ∧
        Square.expression.value (Model.valued (.still fun _ _ => 0) v) [] σ =
          (v (.coefficient Square.u) [.fixed 0] (some .positive) + 2) ^ 2 := by
  have hbuild : Square.square.build = .ok Square.expression := by
    cbv
  obtain ⟨ms, hms, hvalue⟩ := build_monomials hbuild
  -- the function is not constant, so its slope does not vanish
  have hlinear : (Square.slope.function : Expr ℚ).isCellwiseConstant = false := by
    cbv
  have hslope : ¬Square.slope.Vanishes ℚ := fun h => Bool.eq_false_iff.mp hlinear h.1
  refine ⟨hbuild, ms, hms, fun v σ => ?_⟩
  obtain ⟨hmonomials, hpolynomial⟩ :=
    hvalue (M := .still fun _ _ => 0) Model.rational_exact Model.rational_exactPowers v σ
  refine ⟨hmonomials, hpolynomial.trans ?_⟩
  show (Square.slope.value v + 2) ^ 2 = _
  rw [FunctionTerm.value, if_neg hslope]
  rfl

end PolynomialTerm

end WeakForm
