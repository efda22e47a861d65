import Mathlib.Algebra.BigOperators.GroupWithZero.Action
import Mathlib.RingTheory.Derivation.Basic
import WeakForm.Proofs.Canonical
import WeakForm.Proofs.Folding

/-!
# Polynomials in functions, and what is derived and restricted

A polynomial integrand is made of arguments, coefficients and literals by algebra and
indexing, derivatives and restrictions. A derivative is a derivation of the ring of values,
and the restriction to a side is a homomorphism; both leave numbers alone, and they commute.
In such a model every constructor has its meaning also where it folds: what is constant on
each cell has no derivative, and what is a number is the same on both sides.

* `Model.Differential` — derivatives and restrictions in a model;
* `Expr.Polynomial` — polynomial integrands, closed under construction;
* `Expr.InSpace` — functions on domains of one dimension, closed under construction;
* `derivative_constant` — a cellwise constant has no derivative;
* `value_restrict`, `value_derivative` — the constructors;
* `value_unary_polynomial`, `value_binary_polynomial` — what is built has the value of its node.
-/

namespace WeakForm

/-- Derivatives in directions and restrictions to sides, which the modifiers of a model
stand for. -/
structure Model.Differential {R A : Type} [CommRing A] (M : Model R A) where
  derivative : Nat → Derivation ℤ A A
  side : Side → A →+* A
  derivative_number (k : Nat) (x : R) : derivative k (M.number x) = 0
  side_number (s : Side) (x : R) : side s (M.number x) = M.number x
  derivative_side (k : Nat) (s : Side) (x : A) :
    derivative k (side s x) = side s (derivative k x)
  derivative_power (k : Nat) {x y : A} (hx : derivative k x = 0) (hy : derivative k y = 0) :
    derivative k (M.power x y) = 0
  /-- What is constant on each cell has no derivative. -/
  derivative_terminal (k : Nat) {t : Terminal R} (h : t.isCellwiseConstant) (c : List Nat) :
    derivative k (M.terminal t c) = 0
  modified_derivative (is : List Index) (a : Expr R) (f : List Nat → Env → A) (c : List Nat)
    (σ : Env) : M.modified (.spatialDerivative is) a f c σ =
      (is.map σ.resolve).foldl (fun x k => derivative k x) (f c σ)
  modified_restricted (s : Side) (a : Expr R) (f : List Nat → Env → A) (c : List Nat) (σ : Env) :
    M.modified (.restricted s) a f c σ = side s (f c σ)

namespace Model.Differential

variable {R A : Type} [CommRing A] {M : Model R A} (Δ : M.Differential)

/-- The derivative in several directions, one after the other. -/
def derive : List Nat → A →+ A
  | [] => .id A
  | k :: ks => (derive ks).comp (Δ.derivative k).toLinearMap.toAddMonoidHom

theorem derive_cons (k : Nat) (ks : List Nat) (x : A) :
    Δ.derive (k :: ks) x = Δ.derive ks (Δ.derivative k x) :=
  rfl

theorem derive_eq_foldl (ks : List Nat) (x : A) :
    Δ.derive ks x = ks.foldl (fun x k => Δ.derivative k x) x := by
  induction ks generalizing x with
  | nil => rfl
  | cons k ks ih => rw [derive_cons, ih, List.foldl_cons]

theorem derive_append (ks ls : List Nat) (x : A) :
    Δ.derive (ks ++ ls) x = Δ.derive ls (Δ.derive ks x) := by
  rw [derive_eq_foldl, derive_eq_foldl, derive_eq_foldl, List.foldl_append]

/-- Numbers can be taken out of a derivative. -/
theorem derive_number_mul (ks : List Nat) (r : R) (x : A) :
    Δ.derive ks (M.number r * x) = M.number r * Δ.derive ks x := by
  induction ks generalizing x with
  | nil => rfl
  | cons k ks ih =>
    rw [derive_cons, derive_cons, Derivation.leibniz, Δ.derivative_number, smul_zero, add_zero,
      smul_eq_mul, ih]

/-- Taking a side and taking derivatives can be exchanged. -/
theorem derive_side (ks : List Nat) (s : Side) (x : A) :
    Δ.derive ks (Δ.side s x) = Δ.side s (Δ.derive ks x) := by
  induction ks generalizing x with
  | nil => rfl
  | cons k ks ih => rw [derive_cons, derive_cons, Δ.derivative_side, ih]

/-- Where the first derivative vanishes, all do. -/
theorem derive_eq_zero {ks : List Nat} (hne : ks ≠ []) {x : A}
    (h : ∀ k, Δ.derivative k x = 0) : Δ.derive ks x = 0 := by
  cases ks with
  | nil => exact absurd rfl hne
  | cons k ks => rw [derive_cons, h, map_zero]

/-- A derivative of what has none has none. -/
theorem derivative_derive {x : A} (h : ∀ k, Δ.derivative k x = 0) (ks : List Nat) (k : Nat) :
    Δ.derivative k (Δ.derive ks x) = 0 := by
  cases ks with
  | nil => exact h k
  | cons l ks => rw [Δ.derive_eq_zero (List.cons_ne_nil l ks) h, map_zero]

end Model.Differential

/-! ## Polynomial integrands -/

/-- The operators of polynomial integrands. -/
def UnaryOp.isPolynomial : UnaryOp → Bool
  | indexSum _ | indexed _ | componentTensor _ | spatialDerivative _ | restricted _
  | labelled _ => true
  | math _ | abs | grad | referenceGrad | averaged _ => false

def BinaryOp.isPolynomial : BinaryOp → Bool
  | sum | product | power => true
  | division => false

def Terminal.isPolynomial {R : Type} : Terminal R → Bool
  | argument _ | coefficient _ | literal _ | zero _ _ => true
  | geometry _ => false

namespace Expr

variable {R : Type}

/-- Arguments, coefficients and literals under the operators of polynomials. -/
inductive Polynomial : Expr R → Prop
  | leaf {t : Terminal R} (h : t.isPolynomial) : Polynomial (leaf t)
  | unary {op : UnaryOp} {a : Expr R} (hop : op.isPolynomial) (ha : Polynomial a) :
      Polynomial (unary op a)
  | binary {op : BinaryOp} {a b : Expr R} (hop : op.isPolynomial) (ha : Polynomial a)
      (hb : Polynomial b) : Polynomial (binary op a b)
  | listTensor {items : List (Expr R)} (hi : ∀ item ∈ items, Polynomial item) :
      Polynomial (listTensor items)

/-- Constants are polynomials. -/
theorem polynomial_of_isConstantValue {e : Expr R} (h : e.isConstantValue) : Polynomial e := by
  unfold isConstantValue at h
  split at h
  · exact .leaf rfl
  · exact .leaf rfl
  · cases h

section Closed

variable [Scalar R] {a b r : Expr R}

/-- Polynomial operators keep polynomials polynomial. -/
theorem polynomial_unary {op : UnaryOp} (hop : op.isPolynomial) (ha : Polynomial a)
    (h : op.apply a = .ok r) : Polynomial r := by
  rcases unary_outcome h with rfl | hc | rfl
  · exact ha
  · exact polynomial_of_isConstantValue hc
  · exact .unary hop ha

/-- So do those on two operands. -/
theorem polynomial_binary {op : BinaryOp} (hop : op.isPolynomial) (ha : Polynomial a)
    (hb : Polynomial b) (h : op.apply a b = .ok r) : Polynomial r := by
  rcases binary_outcome h with rfl | rfl | hc | rfl
  · exact ha
  · exact hb
  · exact polynomial_of_isConstantValue hc
  · exact .binary hop ha hb

/-- A list tensor of polynomials is one. -/
theorem polynomial_stack {items : List (Expr R)} (hi : ∀ item ∈ items, Polynomial item)
    (h : stack items = .ok r) : Polynomial r := by
  obtain ⟨first, rest, rfl, -, hr⟩ := stack_built h
  cases hr with
  | zero => exact .leaf rfl
  | node => exact .listTensor hi

end Closed

/-! ## Functions on one space -/

/-- All functions live in a space of one dimension. -/
inductive InSpace (gdim : Nat) : Expr R → Prop
  | leaf {t : Terminal R} (h : ∀ d, t.domain? = some d → d.gdim = gdim) : InSpace gdim (leaf t)
  | unary {op : UnaryOp} {a : Expr R} (ha : InSpace gdim a) : InSpace gdim (unary op a)
  | binary {op : BinaryOp} {a b : Expr R} (ha : InSpace gdim a) (hb : InSpace gdim b) :
      InSpace gdim (binary op a b)
  | listTensor {items : List (Expr R)} (hi : ∀ item ∈ items, InSpace gdim item) :
      InSpace gdim (listTensor items)

/-- All domains of an expression lie in one space. -/
theorem InSpace.gdim_eq {e : Expr R} {gdim : Nat} (h : InSpace gdim e) {d : Domain}
    (hd : e.domain? = some d) : d.gdim = gdim := by
  induction h with
  | leaf h =>
    rw [domain?, signature_leaf] at hd
    exact h d hd
  | unary _ ih =>
    rw [domain?, signature_unary] at hd
    exact ih hd
  | binary _ _ iha ihb =>
    rw [domain?, signature_binary] at hd
    -- a domain is that of the left operand, or of the right one
    rcases Option.or_eq_some_iff.mp hd with hd | ⟨-, hd⟩
    · exact iha hd
    · exact ihb hd
  | listTensor _ ih =>
    rw [domain?, signature_stack] at hd
    obtain ⟨sig, hsig, hd⟩ := List.exists_of_findSome?_eq_some hd
    obtain ⟨item, hitem, rfl⟩ := List.mem_map.mp hsig
    exact ih item hitem hd

/-- The space of an expression is that of its domain. -/
theorem signature_gdim {e : Expr R} {d : Domain} (h : e.domain? = some d) :
    e.signature.gdim = d.gdim := by
  rw [Signature.gdim]
  show (e.domain?.map _).getD 0 = _
  rw [h]
  rfl

/-- Constants lie in any space. -/
theorem inSpace_of_isConstantValue {e : Expr R} {gdim : Nat} (h : e.isConstantValue) :
    InSpace gdim e := by
  unfold isConstantValue at h
  split at h
  · exact .leaf fun d hd => nomatch hd
  · exact .leaf fun d hd => nomatch hd
  · cases h

section InSpaceClosed

variable [Scalar R] {a b r : Expr R} {gdim : Nat}

/-- Operators stay in the space of their operand. -/
theorem inSpace_unary {op : UnaryOp} (ha : InSpace gdim a) (h : op.apply a = .ok r) :
    InSpace gdim r := by
  rcases unary_outcome h with rfl | hc | rfl
  · exact ha
  · exact inSpace_of_isConstantValue hc
  · exact .unary ha

/-- The same for two operands. -/
theorem inSpace_binary {op : BinaryOp} (ha : InSpace gdim a) (hb : InSpace gdim b)
    (h : op.apply a b = .ok r) : InSpace gdim r := by
  rcases binary_outcome h with rfl | rfl | hc | rfl
  · exact ha
  · exact hb
  · exact inSpace_of_isConstantValue hc
  · exact .binary ha hb

/-- The same for list tensors. -/
theorem inSpace_stack {items : List (Expr R)} (hi : ∀ item ∈ items, InSpace gdim item)
    (h : stack items = .ok r) : InSpace gdim r := by
  obtain ⟨first, rest, rfl, -, hr⟩ := stack_built h
  cases hr with
  | zero => exact .leaf fun d hd => nomatch hd
  | node => exact .listTensor hi

end InSpaceClosed

/-! ## Values of modifiers -/

section Modifiers

variable {A : Type} [Scalar R] [CommRing A] {M : Model R A} {a r : Expr R}

/-- A derivative is taken along the positions of its directions. -/
theorem value_unary_derivative (Δ : M.Differential) (is : List Index) (a : Expr R) (c : List Nat)
    (σ : Env) : (unary (.spatialDerivative is) a).value M c σ =
      Δ.derive (is.map σ.resolve) (a.value M c σ) := by
  rw [value_modifier M a c σ rfl rfl, Δ.modified_derivative, Δ.derive_eq_foldl]

theorem value_unary_restricted (Δ : M.Differential) (s : Side) (a : Expr R) (c : List Nat)
    (σ : Env) : (unary (.restricted s) a).value M c σ = Δ.side s (a.value M c σ) := by
  rw [value_modifier M a c σ rfl rfl, Δ.modified_restricted]

/-- **A polynomial that is constant on each cell has no derivative.** -/
theorem derivative_constant (Δ : M.Differential) (hp : Polynomial a) (hc : a.isCellwiseConstant)
    (c : List Nat) (σ : Env) (k : Nat) : Δ.derivative k (a.value M c σ) = 0 := by
  induction hp generalizing c σ k with
  | @leaf t ht =>
    have hc : t.isCellwiseConstant := by
      rw [isCellwiseConstant, signature_leaf] at hc
      exact hc
    cases t with
    -- by what the terminal is
    | argument | coefficient => exact Δ.derivative_terminal k hc c
    | literal v => exact Δ.derivative_number k v.value
    | zero shape free => exact map_zero _
    | geometry => cases ht
  | @unary op a hop ha ih =>
    rw [isCellwiseConstant, signature_unary] at hc
    have ih := ih hc
    cases op with
    | indexSum i =>
      -- the derivative of a sum is the sum of the derivatives
      rw [value_unary_indexSum, map_sum]
      exact Finset.sum_eq_zero fun j _ => ih _ _ k
    | indexed is => exact ih _ _ k
    | componentTensor ids => exact ih _ _ k
    | labelled number => exact ih _ _ k
    | spatialDerivative is =>
      rw [value_unary_derivative Δ]
      exact Δ.derivative_derive (ih c σ) _ k
    | restricted s => rw [value_unary_restricted Δ, Δ.derivative_side, ih, map_zero]
    | math | abs | grad | referenceGrad | averaged => cases hop
  | @binary op a b hop ha hb iha ihb =>
    rw [isCellwiseConstant, signature_binary] at hc
    obtain ⟨hca, hcb⟩ := Bool.and_eq_true_iff.mp hc
    have iha := iha hca
    have ihb := ihb hcb
    cases op with
    | sum => rw [value_binary_sum, map_add, iha, ihb, add_zero]
    | product =>
      -- the product rule
      rw [value_binary_product, Derivation.leibniz, iha, ihb, smul_zero, smul_zero, add_zero]
    | power => exact Δ.derivative_power k (iha c σ k) (ihb [] σ k)
    | division => cases hop
  | @listTensor items hi ih =>
    rw [isCellwiseConstant, signature_stack] at hc
    cases c with
    | nil => exact map_zero _
    | cons j c =>
      rw [value_listTensor]
      cases hj : items[j]? with
      | none => exact map_zero _
      | some item =>
        have hmem := List.mem_of_getElem? hj
        have hitem : item.isCellwiseConstant :=
          List.all_eq_true.mp hc _ (List.mem_map_of_mem hmem)
        exact ih item hmem hitem c σ k

/-- A restriction to one side. Numbers are the same on both. -/
theorem value_restrict (Δ : M.Differential) (s : Side) (c : List Nat) (σ : Env) :
    (a.restrict s).value M c σ = Δ.side s (a.value M c σ) := by
  unfold restrict
  split
  · next h =>
    unfold isConstantValue at h
    split at h
    · exact (Δ.side_number s _).symm
    · exact (map_zero _).symm
    · cases h
  · exact value_unary_restricted Δ s a c σ

/-- A derivative in given directions. -/
theorem value_derivative (Δ : M.Differential) (hp : Polynomial a) {is : List Index}
    (h : a.derivative is = .ok r) (c : List Nat) (σ : Env) :
    r.value M c σ = Δ.derive (is.map σ.resolve) (a.value M c σ) := by
  rcases derivative_built h with ⟨rfl, rfl⟩ | ⟨hne, -, -, -, hr⟩
  · rfl
  · cases hr with
    | zero hc =>
      have hne : is.map σ.resolve ≠ [] := fun heq => hne (List.map_eq_nil_iff.mp heq)
      rw [Δ.derive_eq_zero hne (derivative_constant Δ hp hc c σ)]
      rfl
    | node => exact value_unary_derivative Δ is a c σ

end Modifiers

/-! ## What is built has the value of its node -/

section Built

variable {A : Type} [Scalar R] [CommRing A] {M : Model R A} {a b r : Expr R} {c : List Nat}

/-- Folding a polynomial node does not change its value. -/
theorem value_unary_polynomial (hM : M.Exact) (Δ : M.Differential) {op : UnaryOp}
    (hop : op.isPolynomial) (hp : Polynomial a) (h : op.apply a = .ok r) (hc : c.length = r.rank)
    (σ : Env) : r.value M c σ = (unary op a).value M c σ := by
  cases op with
  -- one constructor for each operator
  | indexSum i => exact value_sumOver hM h c σ
  | indexed is => exact value_index hM h hc σ
  | componentTensor ids => exact value_tensor hM h hc σ
  | spatialDerivative is =>
    rw [value_unary_derivative Δ]
    exact value_derivative Δ hp h c σ
  | restricted s =>
    obtain rfl : a.restrict s = r := Except.ok.inj h
    rw [value_unary_restricted Δ]
    exact value_restrict Δ s c σ
  | labelled number =>
    obtain rfl : a.label number = r := Except.ok.inj h
    rfl
  | math | abs | grad | referenceGrad | averaged => cases hop

/-- The same for two operands. -/
theorem value_binary_polynomial (hM : M.Exact) (hpow : M.ExactPowers) {op : BinaryOp}
    (hop : op.isPolynomial) (h : op.apply a b = .ok r) (hc : c.length = r.rank) (σ : Env) :
    r.value M c σ = (binary op a b).value M c σ := by
  cases op with
  | sum => exact value_add hM h c σ
  | product => exact value_mul hM h hc σ
  | power => exact value_pow_of hM hpow.power_one (hpow.literal_pow hM) h c σ
  | division => cases hop

end Built

end Expr

end WeakForm
