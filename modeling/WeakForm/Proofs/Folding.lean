import WeakForm.Proofs.Attributes
import WeakForm.Proofs.Semantics

/-!
# Folding keeps the value

The constructors fold: they return an operand, a literal or a zero where the operator
on top would have the same value. Here the value of what a constructor returns is
computed from the values of its operands, whichever way it folded.

* `value_of_isZero`, `value_of_isOne`, `value_literal` — recognized constants;
* `value_add`, `value_mul`, `value_div` — algebra, for exact literals;
* `value_pow`, `value_math`, `value_abs` — functions, for exact functions of literals;
* `value_sumOver`, `value_index`, `value_tensor`, `value_stack` — indexing.
-/

namespace WeakForm

/-! ## Literals -/

namespace Model

variable {R A : Type} [Scalar R] [CommRing A] {M : Model R A}

namespace Exact

theorem zero (hM : M.Exact) : M.number Scalar.zero = 0 := by
  rw [Scalar.zero, hM.ofInt, Int.cast_zero]

theorem one (hM : M.Exact) : M.number Scalar.one = 1 := by
  rw [Scalar.one, hM.ofInt, Int.cast_one]

theorem literal_int (hM : M.Exact) (n : Int) : M.literal (.int n) = n := by
  rw [literal, Literal.value, hM.ofInt]

/-- A literal that is zero has the value zero. -/
theorem literal_isZero (hM : M.Exact) {v : Literal R} (h : v.isZero) : M.literal v = 0 := by
  cases v with
  | int n =>
    rw [Literal.isZero, beq_iff_eq] at h
    rw [hM.literal_int, h, Int.cast_zero]
  | real x => exact hM.isZero h

/-- A literal that is one has the value one. -/
theorem literal_isOne (hM : M.Exact) {v : Literal R} (h : v.isOne) : M.literal v = 1 := by
  cases v with
  | int n =>
    rw [Literal.isOne, beq_iff_eq] at h
    rw [hM.literal_int, h, Int.cast_one]
  | real x => exact hM.isOne h

/-- A fold is exact where both of its operations are: it matters not which one it takes. -/
theorem literal_fold (hM : M.Exact) {onInt : Int → Int → Int} {onReal : R → R → R}
    {op : A → A → A} (hint : ∀ m n : Int, ((onInt m n : Int) : A) = op m n)
    (hreal : ∀ x y, M.number (onReal x y) = op (M.number x) (M.number y)) (v w : Literal R) :
    M.literal (Literal.fold onInt onReal v w) = op (M.literal v) (M.literal w) := by
  unfold Literal.fold
  split
  · next m n =>
    split
    · rw [hM.literal_int, hM.literal_int, hM.literal_int, hint]
    · exact hreal _ _
  · exact hreal _ _

theorem literal_add (hM : M.Exact) (v w : Literal R) :
    M.literal (v.add w) = M.literal v + M.literal w :=
  hM.literal_fold Int.cast_add hM.add v w

theorem literal_mul (hM : M.Exact) (v w : Literal R) :
    M.literal (v.mul w) = M.literal v * M.literal w :=
  hM.literal_fold Int.cast_mul hM.mul v w

end Exact

end Model

namespace Literal

theorem fits_iff {n : Int} : Fits n ↔ -2 ^ 63 ≤ n ∧ n < 2 ^ 63 :=
  Iff.rfl

/-- An integer power that is found is the power. -/
theorem intPow?_eq_some {m n p : Int} (h : intPow? m n = some p) :
    0 ≤ n ∧ p = m ^ n.toNat := by
  unfold intPow? at h
  split at h
  · cases h
  · next hn =>
    have hn : 0 ≤ n := by omega
    obtain ⟨k, rfl⟩ := Int.eq_ofNat_of_zero_le hn
    refine ⟨hn, ?_⟩
    rw [Int.toNat_natCast]
    -- an exponent that is not negative
    split at h
    · next hm =>
      -- the powers of -1, 0 and 1 are told by the parity of the exponent
      have hm : m = -1 ∨ m = 0 ∨ m = 1 := by omega
      rw [← Option.some.inj h]
      rcases hm with rfl | rfl | rfl
      · rcases Nat.even_or_odd k with hk | hk
        · have : (k : Int) % 2 = 0 := by
            obtain ⟨j, rfl⟩ := hk
            omega
          simp [hk.neg_one_pow, this]
        · have : ¬(k : Int) % 2 = 0 := by
            obtain ⟨j, rfl⟩ := hk
            omega
          have hk₀ : k ≠ 0 := by omega
          simp [hk.neg_one_pow, this, hk₀]
      · by_cases hk : k = 0
        · simp [hk]
        · simp [hk]
      · simp
    · split at h
      · cases h
      · split at h
        · rw [← Option.some.inj h, Int.toNat_natCast]
          rfl
        · cases h

end Literal

namespace Model

variable {R A : Type} [Scalar R] [CommRing A] {M : Model R A}

/-- A power of literals, where powers of integers are those of the ring. -/
theorem Exact.literal_pow (hM : M.Exact)
    (hint : ∀ (m : Int) (n : Nat), M.power m n = (m : A) ^ n)
    (hpow : ∀ x y, M.number (Scalar.pow x y) = M.power (M.number x) (M.number y))
    (v w : Literal R) : M.literal (v.pow w) = M.power (M.literal v) (M.literal w) := by
  unfold Literal.pow
  split
  · next m n =>
    split
    · -- an integer power with an exponent that is not negative
      next p hp =>
      obtain ⟨hn, rfl⟩ := Literal.intPow?_eq_some hp
      obtain ⟨k, rfl⟩ := Int.eq_ofNat_of_zero_le hn
      rw [hM.literal_int, hM.literal_int, hM.literal_int, Int.toNat_natCast, Int.cast_pow,
        Int.cast_natCast, hint]
    · -- any other power is taken of the numbers
      exact hpow _ _
  · exact hpow _ _

theorem ExactFunctions.literal_pow (hM : M.Exact) (hf : M.ExactFunctions) (v w : Literal R) :
    M.literal (v.pow w) = M.power (M.literal v) (M.literal w) :=
  hM.literal_pow hf.power_int hf.pow v w

theorem ExactPowers.literal_pow (hM : M.Exact) (hp : M.ExactPowers) (v w : Literal R) :
    M.literal (v.pow w) = M.power (M.literal v) (M.literal w) :=
  hM.literal_pow (fun m n => hp.nat m n) hp.pow v w

theorem ExactPowers.power_one (hp : M.ExactPowers) (x : A) : M.power x 1 = x := by
  have h := hp.nat x 1
  rwa [Nat.cast_one, pow_one] at h

/-- An absolute value that is not refused is the absolute value. -/
theorem ExactFunctions.literal_abs (hM : M.Exact) (hf : M.ExactFunctions) {v w : Literal R}
    (h : v.abs? = some w) : M.literal w = M.abs (M.literal v) := by
  cases v with
  | int n =>
    rw [Literal.abs?] at h
    split at h
    · rw [← Option.some.inj h, hM.literal_int, hM.literal_int, hf.abs_int, Int.cast_natCast]
    · cases h
  | real x =>
    rw [Literal.abs?] at h
    rw [← Option.some.inj h]
    exact hf.abs x

end Model

/-! ## Constants -/

namespace Expr

variable {R A : Type} [Scalar R] [CommRing A] {M : Model R A}

@[simp] theorem value_zeroOf (op : UnaryOp) (a : Expr R) (c : List Nat) (σ : Env) :
    (zeroOf op a).value M c σ = 0 :=
  value_zero M c σ _ _

@[simp] theorem value_zeroOf₂ (op : BinaryOp) (a b : Expr R) (c : List Nat) (σ : Env) :
    (zeroOf₂ op a b).value M c σ = 0 :=
  value_zero M c σ _ _

/-- A literal has the value of its number, also where it is built as a zero. -/
theorem value_literal (hM : M.Exact) (v : Literal R) (c : List Nat) (σ : Env) :
    (literal v).value M c σ = M.literal v := by
  unfold literal
  split
  · next hv => rw [zero, value_zero, hM.literal_isZero hv]
  · exact value_leaf_literal M c σ v

/-- An expression that is zero has the value zero. -/
theorem value_of_isZero (hM : M.Exact) {e : Expr R} (h : e.isZero) (c : List Nat) (σ : Env) :
    e.value M c σ = 0 := by
  unfold isZero at h
  split at h
  · exact value_zero M c σ _ _
  · rw [value_leaf_literal, hM.literal_isZero h]
  · cases h

/-- An expression that is one has the value one. -/
theorem value_of_isOne (hM : M.Exact) {e : Expr R} (h : e.isOne) (c : List Nat) (σ : Env) :
    e.value M c σ = 1 := by
  unfold isOne at h
  split at h
  · rw [value_leaf_literal, hM.literal_isOne h]
  · cases h

/-- A constant has the value of its literal. -/
theorem value_of_constant? (hM : M.Exact) {e : Expr R} {v : Literal R}
    (h : e.constant? = some v) (c : List Nat) (σ : Env) : e.value M c σ = M.literal v := by
  unfold constant? at h
  split at h
  · rw [value_leaf_literal, Option.some.inj h]
  · rw [value_zero, ← Option.some.inj h]
    exact hM.zero.symm
  · cases h

/-! ## Algebra -/

variable {a b r : Expr R}

/-- Folding a sum does not change its value. -/
theorem value_add (hM : M.Exact) (h : a.add b = .ok r) (c : List Nat) (σ : Env) :
    r.value M c σ = a.value M c σ + b.value M c σ := by
  obtain ⟨-, -, hr⟩ := add_built h
  cases hr with
  | zeroLeft ha => rw [value_of_isZero hM ha, zero_add]
  | zeroRight _ hb => rw [value_of_isZero hM hb, add_zero]
  | literals ha hb =>
    rw [ha, hb, value_literal hM, hM.literal_add, value_leaf_literal, value_leaf_literal]
  | node => rw [value_binary_sum]

/-- A factor without axes is taken as a whole, and the other one at the component. -/
theorem value_mul (hM : M.Exact) (h : a.mul b = .ok r) {c : List Nat} (hc : c.length = r.rank)
    (σ : Env) :
    r.value M c σ = a.value M (c.take a.rank) σ * b.value M (c.take b.rank) σ := by
  obtain ⟨-, -, hr⟩ := mul_built h
  cases hr with
  | zero hz =>
    rcases hz with ha | hb
    · rw [value_zeroOf₂, value_of_isZero hM ha, zero_mul]
    · rw [value_zeroOf₂, value_of_isZero hM hb, mul_zero]
  -- a one is scalar, so the component is that of the other factor
  | oneLeft _ ha => rw [value_of_isOne hM ha, one_mul, ← hc, List.take_length]
  | oneRight _ _ hb => rw [value_of_isOne hM hb, mul_one, ← hc, List.take_length]
  | literals ha hb =>
    rw [ha, hb, value_literal hM, hM.literal_mul, value_leaf_literal, value_leaf_literal]
  | node => rw [value_binary_product]

/-- Folding a product of scalars does not change its value. -/
theorem value_mul_scalar (hM : M.Exact) (ha : a.isScalar) (hb : b.isScalar)
    (h : a.mul b = .ok r) (σ : Env) : r.value M [] σ = a.value M [] σ * b.value M [] σ := by
  obtain ⟨r', h', hr⟩ := isScalar_mul ha hb
  obtain rfl : r' = r := Except.ok.inj (h'.symm.trans h)
  have hrank : ([] : List Nat).length = r'.rank := by
    rw [rank, (isScalar_iff.mp hr).1]
  rw [value_mul hM h hrank, List.take_nil, List.take_nil]

/-- Folding a power does not change its value, as long as powers are what they should be. -/
theorem value_pow_of (hM : M.Exact) (hone : ∀ x, M.power x 1 = x)
    (hlit : ∀ v w, M.literal (v.pow w) = M.power (M.literal v) (M.literal w))
    (h : a.pow b = .ok r) (c : List Nat) (σ : Env) :
    r.value M c σ = M.power (a.value M c σ) (b.value M [] σ) := by
  obtain ⟨-, -, -, hr⟩ := pow_built h
  cases hr with
  | one hb => rw [value_of_isOne hM hb, hone]
  | literals ha hb =>
    rw [value_literal hM, hlit, value_of_constant? hM ha, value_of_constant? hM hb]
  | node => rw [value_binary_power]

theorem value_pow (hM : M.Exact) (hf : M.ExactFunctions) (h : a.pow b = .ok r) (c : List Nat)
    (σ : Env) : r.value M c σ = M.power (a.value M c σ) (b.value M [] σ) :=
  value_pow_of hM hf.power_one (hf.literal_pow hM) h c σ

/-- Folding a function does not change its value. -/
theorem value_math (hM : M.Exact) (hf : M.ExactFunctions) {f : MathFunction}
    (h : a.math f = .ok r) (c : List Nat) (σ : Env) :
    r.value M c σ = M.math f (a.value M c σ) := by
  obtain ⟨-, hr⟩ := math_built h
  cases hr with
  | literal ha =>
    rw [value_literal hM, value_of_constant? hM ha]
    exact hf.math f _
  | node => rw [value_unary_math]

/-- Folding an absolute value does not change it. -/
theorem value_abs (hM : M.Exact) (hf : M.ExactFunctions) (h : a.abs = .ok r) (c : List Nat)
    (σ : Env) : r.value M c σ = M.abs (a.value M c σ) := by
  cases abs_built h with
  | zero ha =>
    have h₀ := hf.abs_int 0
    rw [Int.cast_zero, Int.natAbs_zero, Nat.cast_zero] at h₀
    rw [value_of_isZero hM ha, h₀]
  | literal ha hx => rw [ha, value_literal hM, value_leaf_literal, hf.literal_abs hM hx]
  | node => rw [value_unary_abs]

/-! ## Indexing -/

/-- Folding a sum over an index does not change its value. -/
theorem value_sumOver (hM : M.Exact) {i : IndexId} (h : a.sumOver i = .ok r) (c : List Nat)
    (σ : Env) :
    r.value M c σ =
      ∑ j ∈ Finset.range ((a.free.dim? i).getD 0), a.value M c (σ.bind [i] [j]) := by
  obtain ⟨-, hr⟩ := sumOver_built h
  cases hr with
  | zero ha =>
    rw [value_zeroOf]
    exact (Finset.sum_eq_zero fun j _ => value_of_isZero hM ha c _).symm
  | node => rw [value_unary_indexSum]

/-- Folding an indexing does not change its value. -/
theorem value_index (hM : M.Exact) {is : List Index} (h : a.index is = .ok r) {c : List Nat}
    (hc : c.length = r.rank) (σ : Env) : r.value M c σ = a.value M (is.map σ.resolve) σ := by
  -- what is indexed has no axes
  obtain rfl : c = [] := by
    rw [rank, (attributes_index h).1] at hc
    exact List.eq_nil_of_length_eq_zero hc
  obtain ⟨-, ⟨rfl, rfl⟩ | ⟨-, -, hr⟩⟩ := index_built h
  · rfl
  · cases hr with
    | zero ha => rw [value_zeroOf, value_of_isZero hM ha]
    | node => rw [value_unary_indexed]

/-- Folding a component tensor does not change its value. -/
theorem value_tensor (hM : M.Exact) {ids : List IndexId} (h : a.tensor (ids.map .free) = .ok r)
    {c : List Nat} (hc : c.length = r.rank) (σ : Env) :
    r.value M c σ = a.value M [] (σ.bind ids c) := by
  obtain ⟨hs, ⟨rfl, rfl⟩ | ⟨-, -, hr⟩⟩ := tensor_ids_built h
  · rw [rank, hs] at hc
    rw [List.eq_nil_of_length_eq_zero hc, Env.bind_nil]
  · cases hr with
    | zero ha => rw [value_zeroOf, value_of_isZero hM ha]
    | node => rw [value_unary_componentTensor]

/-- A list tensor reads the item at its leading position. -/
theorem value_stack (hM : M.Exact) {items : List (Expr R)} (h : stack items = .ok r) (k : Nat)
    (c : List Nat) (σ : Env) :
    r.value M (k :: c) σ = ((items[k]?).map fun item => item.value M c σ).getD 0 := by
  obtain ⟨first, rest, rfl, -, hr⟩ := stack_built h
  cases hr with
  | zero hz =>
    rw [value_zero]
    cases hk : (first :: rest)[k]? with
    | none => rfl
    | some item =>
      have hitem := List.all_eq_true.mp hz item (List.mem_of_getElem? hk)
      rw [Option.map_some, Option.getD_some, value_of_isZero hM hitem]
  | node => rw [value_listTensor]

end Expr

/-! ## Division -/

namespace Expr

variable {R K : Type} [Scalar R] [Field K] {M : Model R K} {a b r : Expr R}

/-- Folding a quotient does not change its value. -/
theorem value_div (hM : M.Exact) (hq : M.ExactQuotients) (h : a.div b = .ok r) (c : List Nat)
    (σ : Env) : r.value M c σ = a.value M c σ / b.value M [] σ := by
  obtain ⟨-, -, -, hr⟩ := div_built h
  cases hr with
  | zero ha => rw [value_zeroOf₂, value_of_isZero hM ha, zero_div]
  | one _ hb => rw [value_of_isOne hM hb, div_one]
  | literals ha hb =>
    rw [ha, hb, value_literal hM, value_leaf_literal, value_leaf_literal]
    exact hq.div _ _
  | node => rw [value_binary_division, hq.quotient]

end Expr

end WeakForm
