import WeakForm.Proofs.Construction

/-!
# Shape and free indices of what is built

The shape and the free indices of an expression are those its operator computes from
its operands, also where the constructor folds: a result that is a zero, a literal or
an operand has the attributes that the operator on top would have.

* `attributes_unary`, `attributes_binary` — for the operators over one and two operands;
* `attributes_stack` — for list tensors;
* `isScalar_apply₂` — algebra on scalars builds scalars.
-/

namespace WeakForm

namespace FreeIndices

@[simp] theorem nil_union (b : FreeIndices) : union [] b = b := by
  rw [union]

@[simp] theorem union_nil (a : FreeIndices) : union a [] = a := by
  cases a <;> simp [union]

/-- Merging a set with itself changes nothing. -/
theorem union_self (a : FreeIndices) : union a a = a := by
  induction a with
  | nil => rw [union]
  | cons x a ih => rw [union, if_neg (Nat.lt_irrefl _), if_neg (Nat.lt_irrefl _), ih]

@[simp] theorem sort_nil : sort [] = [] := by
  simp [sort]

end FreeIndices

namespace Expr

variable {R : Type}

@[simp] theorem shape_leaf (t : Terminal R) : (leaf t).shape = t.shape := by
  simp [shape, Terminal.signature]

@[simp] theorem free_leaf (t : Terminal R) : (leaf t).free = t.free := by
  simp [free, Terminal.signature]

@[simp] theorem shape_unary (op : UnaryOp) (a : Expr R) :
    (unary op a).shape = op.shape a.signature := by
  simp [shape, UnaryOp.signature]

@[simp] theorem free_unary (op : UnaryOp) (a : Expr R) :
    (unary op a).free = op.free a.signature := by
  simp [free, UnaryOp.signature]

@[simp] theorem shape_binary (op : BinaryOp) (a b : Expr R) :
    (binary op a b).shape = op.shape a.signature b.signature := by
  simp [shape, BinaryOp.signature]

@[simp] theorem free_binary (op : BinaryOp) (a b : Expr R) :
    (binary op a b).free = op.free a.signature b.signature := by
  simp [free, BinaryOp.signature]

theorem shape_leaf_literal (v : Literal R) : (leaf (.literal v)).shape = [] :=
  shape_leaf _

theorem free_leaf_literal (v : Literal R) : (leaf (.literal v)).free = [] :=
  free_leaf _

/-- A shape and free indices. -/
def HasAttributes (e : Expr R) (shape : List Nat) (free : FreeIndices) : Prop :=
  e.shape = shape ∧ e.free = free

theorem attributes_leaf (t : Terminal R) : (leaf t).HasAttributes t.shape t.free :=
  ⟨shape_leaf t, free_leaf t⟩

theorem attributes_node (op : UnaryOp) (a : Expr R) :
    (unary op a).HasAttributes (op.shape a.signature) (op.free a.signature) :=
  ⟨shape_unary op a, free_unary op a⟩

theorem attributes_node₂ (op : BinaryOp) (a b : Expr R) :
    (binary op a b).HasAttributes (op.shape a.signature b.signature)
      (op.free a.signature b.signature) :=
  ⟨shape_binary op a b, free_binary op a b⟩

theorem attributes_zeroOf (op : UnaryOp) (a : Expr R) :
    (zeroOf op a).HasAttributes (op.shape a.signature) (op.free a.signature) :=
  attributes_leaf _

theorem attributes_zeroOf₂ (op : BinaryOp) (a b : Expr R) :
    (zeroOf₂ op a b).HasAttributes (op.shape a.signature b.signature)
      (op.free a.signature b.signature) :=
  attributes_leaf _

variable [Scalar R] {a b r : Expr R}

theorem attributes_literal (v : Literal R) : (literal v).HasAttributes [] [] := by
  unfold literal
  split <;> exact attributes_leaf _

/-- An expression that is one is a literal. -/
theorem attributes_of_isOne (h : a.isOne) : a.HasAttributes [] [] := by
  unfold isOne at h
  split at h
  · exact attributes_leaf _
  · cases h

/-- So is one with a constant value. -/
theorem attributes_of_constant? {v : Literal R} (h : a.constant? = some v) :
    a.HasAttributes [] [] := by
  unfold constant? at h
  split at h
  · exact attributes_leaf _
  · exact attributes_leaf _
  · cases h

/-! ## Algebra -/

/-- A sum has the attributes of its operands, which have the same. -/
theorem attributes_add (h : a.add b = .ok r) : r.HasAttributes a.shape a.free := by
  obtain ⟨hs, hf, hr⟩ := add_built h
  cases hr with
  | zeroLeft => exact ⟨hs.symm, hf.symm⟩
  | zeroRight => exact ⟨rfl, rfl⟩
  | literals ha =>
    rw [ha, shape_leaf_literal, free_leaf_literal]
    exact attributes_literal _
  | node => exact attributes_node₂ .sum a b

omit [Scalar R] in
/-- A product has the shape of the operand that is no scalar. -/
theorem product_shape : BinaryOp.shape .product a.signature b.signature =
    if a.shape = [] then b.shape else a.shape := by
  simp only [BinaryOp.shape, List.isEmpty_iff]
  rfl

/-- The attributes of a product, however it is folded. -/
theorem attributes_mul (h : a.mul b = .ok r) :
    r.HasAttributes (if a.shape = [] then b.shape else a.shape) (a.free.union b.free) := by
  obtain ⟨hs, -, hr⟩ := mul_built h
  cases hr with
  | zero =>
    have := attributes_zeroOf₂ .product a b
    rwa [product_shape] at this
  -- a factor one has neither a shape nor free indices
  | oneLeft _ ha =>
    obtain ⟨hs, hf⟩ := attributes_of_isOne ha
    simp [HasAttributes, hs, hf]
  | oneRight _ _ hb =>
    obtain ⟨hs, hf⟩ := attributes_of_isOne hb
    by_cases ha : a.shape = []
    · simp [HasAttributes, hs, hf, ha]
    · simp [HasAttributes, hf, ha]
  | @literals x y ha hb =>
    subst ha hb
    simp [(attributes_literal (x.mul y)).1, (attributes_literal (x.mul y)).2, HasAttributes,
      shape_leaf_literal, free_leaf_literal, -shape_leaf, -free_leaf]
  | node =>
    have := attributes_node₂ .product a b
    rwa [product_shape] at this

/-- A quotient has the shape of the dividend, and the free indices of both. -/
theorem attributes_div (h : a.div b = .ok r) :
    r.HasAttributes a.shape (a.free.union b.free) := by
  obtain ⟨-, -, -, hr⟩ := div_built h
  cases hr with
  | zero => exact attributes_zeroOf₂ .division a b
  | one _ hb =>
    obtain ⟨-, hf⟩ := attributes_of_isOne hb
    rw [hf, FreeIndices.union_nil]
    exact ⟨rfl, rfl⟩
  | @literals x y ha hb =>
    subst ha hb
    simp [(attributes_literal (x.div y)).1, (attributes_literal (x.div y)).2, HasAttributes,
      shape_leaf_literal, free_leaf_literal, -shape_leaf, -free_leaf]
  | node => exact attributes_node₂ .division a b

/-- A power is a scalar with the free indices of its base. -/
theorem attributes_pow (h : a.pow b = .ok r) : r.HasAttributes [] a.free := by
  obtain ⟨hs, -, -, hr⟩ := pow_built h
  cases hr with
  | one => exact ⟨hs, rfl⟩
  | literals ha =>
    obtain ⟨-, hf⟩ := attributes_of_constant? ha
    rw [hf]
    exact attributes_literal _
  | node => exact attributes_node₂ .power a b

/-- The rules of the operators over two operands hold of what is built. -/
theorem attributes_binary {op : BinaryOp} (h : op.apply a b = .ok r) :
    r.HasAttributes (op.shape a.signature b.signature) (op.free a.signature b.signature) := by
  cases op with
  | sum => exact attributes_add h
  | product =>
    rw [product_shape]
    exact attributes_mul h
  | division => exact attributes_div h
  | power => exact attributes_pow h

omit [Scalar R] in
/-- Operators on scalars give scalars. -/
theorem isScalar_binary (op : BinaryOp) (ha : a.isScalar) (hb : b.isScalar) :
    (binary op a b).isScalar := by
  rw [isScalar_iff] at ha hb ⊢
  -- nothing is free in either operand
  have hunion : a.free.union b.free = [] := by
    rw [ha.2, hb.2, FreeIndices.union_nil]
  cases op with
  | sum => exact ⟨(shape_binary _ a b).trans ha.1, (free_binary _ a b).trans ha.2⟩
  | product =>
    refine ⟨?_, (free_binary _ a b).trans hunion⟩
    rw [shape_binary, product_shape, ha.1, hb.1, if_pos rfl]
  | division => exact ⟨(shape_binary _ a b).trans ha.1, (free_binary _ a b).trans hunion⟩
  | power => exact ⟨shape_binary _ a b, (free_binary _ a b).trans ha.2⟩

omit [Scalar R] in
theorem isScalar_zero : (zero [] : Expr R).isScalar :=
  isScalar_iff.mpr ⟨shape_leaf _, free_leaf _⟩

/-- Algebra on scalars builds scalars. -/
theorem isScalar_apply₂ {op : BinaryOp} (ha : a.isScalar) (hb : b.isScalar)
    (h : op.apply a b = .ok r) : r.isScalar := by
  obtain ⟨hshape, hfree⟩ := attributes_binary h
  have hnode := isScalar_iff.mp (isScalar_binary op ha hb)
  rw [shape_binary, free_binary] at hnode
  exact isScalar_iff.mpr ⟨hshape.trans hnode.1, hfree.trans hnode.2⟩

/-- Sums of scalars are built, and are scalars. -/
theorem isScalar_add (ha : a.isScalar) (hb : b.isScalar) :
    ∃ r, a.add b = .ok r ∧ r.isScalar := by
  obtain ⟨r, h⟩ := add_scalar ha hb
  obtain ⟨hs, hf⟩ := attributes_add h
  rw [isScalar_iff] at ha
  exact ⟨r, h, isScalar_iff.mpr ⟨hs.trans ha.1, hf.trans ha.2⟩⟩

/-- Products of scalars are built, and are scalars. -/
theorem isScalar_mul (ha : a.isScalar) (hb : b.isScalar) :
    ∃ r, a.mul b = .ok r ∧ r.isScalar := by
  obtain ⟨r, h⟩ : ∃ r, a.mul b = .ok r := mul_scalar ha
  obtain ⟨hs, hf⟩ := attributes_mul h
  rw [isScalar_iff] at ha hb
  simp only [ha, hb, if_true, FreeIndices.nil_union] at hs hf
  exact ⟨r, h, isScalar_iff.mpr ⟨hs, hf⟩⟩

/-! ## Functions and indexing -/

/-- A function value is a scalar with the free indices of its operand. -/
theorem attributes_math {f : MathFunction} (h : a.math f = .ok r) :
    r.HasAttributes [] a.free := by
  obtain ⟨-, hr⟩ := math_built h
  cases hr with
  | literal ha =>
    obtain ⟨-, hf⟩ := attributes_of_constant? ha
    rw [hf]
    exact attributes_literal _
  | node => exact attributes_node (.math f) a

/-- An absolute value has the attributes of its operand. -/
theorem attributes_abs (h : a.abs = .ok r) : r.HasAttributes a.shape a.free := by
  cases abs_built h with
  | zero => exact ⟨rfl, rfl⟩
  | literal ha =>
    rw [ha, shape_leaf_literal, free_leaf_literal]
    exact attributes_literal _
  | node => exact attributes_node .abs a

/-- A node or a zero in its place: the attributes are those of the node. -/
theorem ZeroOr.attributes {op : UnaryOp} (h : ZeroOr op a r) :
    r.HasAttributes (op.shape a.signature) (op.free a.signature) := by
  cases h with
  | zero => exact attributes_zeroOf op a
  | node => exact attributes_node op a

omit [Scalar R] in
/-- The same, where a constant has a zero derivative. -/
theorem Derived.attributes {op : UnaryOp} (h : Derived op a r) :
    r.HasAttributes (op.shape a.signature) (op.free a.signature) := by
  cases h with
  | zero => exact attributes_zeroOf op a
  | node => exact attributes_node op a

/-- The free entries of an indexing become free indices. -/
theorem attributes_index {is : List Index} (h : a.index is = .ok r) :
    r.HasAttributes [] (a.free.union (Signature.indexedFree is a.shape)) := by
  obtain ⟨hl, ⟨rfl, rfl⟩ | ⟨-, -, hr⟩⟩ := index_built h
  · have hs : r.shape = [] := List.eq_nil_of_length_eq_zero hl.symm
    simp [HasAttributes, hs, Signature.indexedFree]
  · exact hr.attributes

/-- A component tensor has an axis for each bound index. -/
theorem attributes_tensor {ids : List IndexId} (h : a.tensor (ids.map .free) = .ok r) :
    r.HasAttributes (ids.map fun i => (a.free.dim? i).getD 0)
      (ids.foldl FreeIndices.erase a.free) := by
  obtain ⟨hs, ⟨rfl, rfl⟩ | ⟨-, -, hr⟩⟩ := tensor_ids_built h
  · exact ⟨hs, rfl⟩
  · exact hr.attributes

omit [Scalar R] in
/-- A derivative has the shape of its operand; its free directions become free indices. -/
theorem attributes_derivative {is : List Index} (h : a.derivative is = .ok r) :
    r.HasAttributes a.shape (a.free.union (Signature.directionFree is a.signature.gdim)) := by
  rcases derivative_built h with ⟨rfl, rfl⟩ | ⟨-, -, -, -, hr⟩
  · simp [HasAttributes, Signature.directionFree]
  · exact hr.attributes

omit [Scalar R] in
/-- A restriction has the attributes of its operand. -/
theorem attributes_restrict (side : Side) : (a.restrict side).HasAttributes a.shape a.free := by
  unfold restrict
  split
  · exact ⟨rfl, rfl⟩
  · exact attributes_node (.restricted side) a

omit [Scalar R] in
/-- So has an average. -/
theorem attributes_average (region : Averaging) :
    (a.average region).HasAttributes a.shape a.free := by
  unfold average
  split
  · exact ⟨rfl, rfl⟩
  · exact attributes_node (.averaged region) a

/-- The rules of the operators over one operand hold of what is built. -/
theorem attributes_unary {op : UnaryOp} (h : op.apply a = .ok r) :
    r.HasAttributes (op.shape a.signature) (op.free a.signature) := by
  cases op with
  | math f => exact attributes_math h
  | abs => exact attributes_abs h
  | indexSum i => exact (sumOver_built h).2.attributes
  | indexed is => exact attributes_index h
  | componentTensor ids => exact attributes_tensor h
  | restricted side =>
    obtain rfl : a.restrict side = r := Except.ok.inj h
    exact attributes_restrict side
  | grad => exact (gradient_built h).2.attributes
  | referenceGrad => exact (referenceGradient_built h).2.attributes
  | spatialDerivative is => exact attributes_derivative h
  | averaged region =>
    obtain rfl : a.average region = r := Except.ok.inj h
    exact attributes_average region
  | labelled number =>
    obtain rfl : a.label number = r := Except.ok.inj h
    exact attributes_node (.labelled number) a

/-- A stack has one more axis than its first item, and that item's free indices. -/
theorem attributes_stack {first : Expr R} {rest : List (Expr R)}
    (h : stack (first :: rest) = .ok r) :
    r.HasAttributes ((first :: rest).length :: first.shape) first.free := by
  obtain ⟨_, _, heq, -, hr⟩ := stack_built h
  cases heq
  cases hr with
  | zero => exact attributes_leaf _
  | node => simp [HasAttributes, shape, free, Signature.stack]

/-- A stack has one more axis than each of its items, and the free indices of each. -/
theorem attributes_item {items : List (Expr R)} {item : Expr R} (h : stack items = .ok r)
    (hi : item ∈ items) : r.HasAttributes (items.length :: item.shape) item.free := by
  obtain ⟨first, rest, rfl, hrest, -⟩ := stack_built h
  have hfirst := attributes_stack h
  rcases List.mem_cons.mp hi with rfl | hi
  · exact hfirst
  · obtain ⟨hshape, hfree⟩ := hrest item hi
    rw [hshape, hfree]
    exact hfirst

end Expr

end WeakForm
