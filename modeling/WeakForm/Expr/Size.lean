import WeakForm.Expr.Build

/-!
# Building never grows an expression by more than its root

Counted as a tree, an expression built over given operands has at most one node
more than they have together: a constructor either adds its node, or gives an
operand back, or folds the operands away.

* `size_apply_unary`, `size_apply_binary`, `size_stack` — the bound, per kind of
  operator;
* `size_lt_of_mem_operands` — operands, and so the items of a tensor, are smaller than what they
  are operands of.
-/

namespace WeakForm.Expr

variable {R : Type}

theorem size_pos (e : Expr R) : 1 ≤ e.size := by
  cases e <;> simp [size]

@[simp] theorem size_leaf (t : Terminal R) : (leaf t).size = 1 := by
  simp [size]

@[simp] theorem size_unary (op : UnaryOp) (a : Expr R) : (unary op a).size = a.size + 1 := by
  simp [size]

@[simp] theorem size_binary (op : BinaryOp) (a b : Expr R) :
    (binary op a b).size = a.size + b.size + 1 := by
  simp [size]

@[simp] theorem size_listTensor (items : List (Expr R)) :
    (listTensor items).size = totalSize items + 1 := by
  simp [size, totalSize]

@[simp] theorem totalSize_nil : totalSize ([] : List (Expr R)) = 0 :=
  rfl

@[simp] theorem totalSize_cons (e : Expr R) (es : List (Expr R)) :
    totalSize (e :: es) = e.size + totalSize es :=
  rfl

/-- An item is smaller than the tensor it is stacked into. -/
theorem size_lt_of_mem {item : Expr R} {items : List (Expr R)} (h : item ∈ items) :
    item.size < (listTensor items).size := by
  rw [size_listTensor, Nat.lt_succ_iff]
  induction items with
  | nil => cases h
  | cons a items ih =>
    rw [totalSize_cons]
    rcases List.mem_cons.mp h with rfl | h
    · omega
    · exact Nat.le_trans (ih h) (Nat.le_add_left _ _)

/-- An operand is smaller than what is built over it. -/
theorem size_lt_of_mem_operands {a e : Expr R} (h : a ∈ e.operands) : a.size < e.size := by
  cases e with
  | leaf t => cases h
  | unary op b =>
    rw [List.mem_singleton.mp h, size_unary]
    omega
  | binary op b c =>
    simp only [operands, List.mem_cons, List.not_mem_nil, or_false] at h
    rw [size_binary]
    rcases h with rfl | rfl <;> omega
  -- an item of a list tensor counts among all of them
  | listTensor items => exact size_lt_of_mem h

@[simp] theorem size_zeroOf (op : UnaryOp) (a : Expr R) : (zeroOf op a).size = 1 := by
  simp [zeroOf]

@[simp] theorem size_zeroOf₂ (op : BinaryOp) (a b : Expr R) : (zeroOf₂ op a b).size = 1 := by
  simp [zeroOf₂]

theorem size_restrict (side : Side) (a : Expr R) : (a.restrict side).size ≤ a.size + 1 := by
  unfold restrict
  split <;> simp

theorem size_average (region : Averaging) (a : Expr R) :
    (a.average region).size ≤ a.size + 1 := by
  unfold average
  split <;> simp

/-- A gradient makes at most one node. -/
theorem size_gradient {a r : Expr R} (h : a.gradient = .ok r) : r.size ≤ a.size + 1 := by
  unfold gradient at h
  simp only [bind, Except.bind, pure, Except.pure] at h
  repeat' split at h
  all_goals grind [size_unary, size_zeroOf]

theorem size_referenceGradient {a r : Expr R} (h : a.referenceGradient = .ok r) :
    r.size ≤ a.size + 1 := by
  unfold referenceGradient at h
  simp only [bind, Except.bind, pure, Except.pure] at h
  repeat' split at h
  all_goals grind [size_unary, size_zeroOf]

/-- A derivative makes at most one node. -/
theorem size_derivative {a r : Expr R} {is : List Index} (h : a.derivative is = .ok r) :
    r.size ≤ a.size + 1 := by
  unfold derivative at h
  simp only [bind, Except.bind, pure, Except.pure] at h
  repeat' split at h
  all_goals grind [size_unary, size_zeroOf]

variable [Scalar R]

@[simp] theorem size_literal (v : Literal R) : (literal v).size = 1 := by
  unfold literal
  split <;> simp [zero]

/-- A sum folds to an operand or a literal, or makes one node. -/
theorem size_add {a b r : Expr R} (h : a.add b = .ok r) : r.size ≤ a.size + b.size + 1 := by
  unfold add at h
  simp only [bind, Except.bind, pure, Except.pure, throw, throwThe, MonadExceptOf.throw] at h
  repeat' split at h
  all_goals grind [size_pos, size_literal, size_binary]

/-- A product folds likewise. -/
theorem size_mul {a b r : Expr R} (h : a.mul b = .ok r) : r.size ≤ a.size + b.size + 1 := by
  unfold mul at h
  simp only [bind, Except.bind, pure, Except.pure, throw, throwThe, MonadExceptOf.throw] at h
  repeat' split at h
  all_goals grind [size_pos, size_literal, size_binary, size_zeroOf₂]

theorem size_div {a b r : Expr R} (h : a.div b = .ok r) : r.size ≤ a.size + b.size + 1 := by
  unfold div at h
  simp only [bind, Except.bind, pure, Except.pure, throw, throwThe, MonadExceptOf.throw] at h
  repeat' split at h
  all_goals grind [size_pos, size_literal, size_binary, size_zeroOf₂]

theorem size_pow {a b r : Expr R} (h : a.pow b = .ok r) : r.size ≤ a.size + b.size + 1 := by
  unfold pow at h
  simp only [bind, Except.bind, pure, Except.pure, throw, throwThe, MonadExceptOf.throw] at h
  repeat' split at h
  all_goals grind [size_pos, size_literal, size_binary]

theorem size_math {f : MathFunction} {a r : Expr R} (h : a.math f = .ok r) :
    r.size ≤ a.size + 1 := by
  unfold math at h
  simp only [bind, Except.bind, pure, Except.pure, throw, throwThe, MonadExceptOf.throw] at h
  repeat' split at h
  all_goals grind [size_pos, size_literal, size_unary]

theorem size_abs {a r : Expr R} (h : a.abs = .ok r) : r.size ≤ a.size + 1 := by
  unfold abs at h
  repeat' split at h
  all_goals grind [size_pos, size_literal, size_unary]

/-- A sum over an index folds likewise. -/
theorem size_sumOver {a r : Expr R} {i : IndexId} (h : a.sumOver i = .ok r) :
    r.size ≤ a.size + 1 := by
  unfold sumOver at h
  simp only [bind, Except.bind, pure, Except.pure, throw, throwThe, MonadExceptOf.throw] at h
  repeat' split at h
  all_goals grind [size_pos, size_unary, size_zeroOf]

/-- An indexing folds likewise. -/
theorem size_index {a r : Expr R} {is : List Index} (h : a.index is = .ok r) :
    r.size ≤ a.size + 1 := by
  unfold index at h
  simp only [bind, Except.bind, pure, Except.pure, throw, throwThe, MonadExceptOf.throw] at h
  repeat' split at h
  all_goals grind [size_pos, size_unary, size_zeroOf]

/-- A component tensor folds likewise. -/
theorem size_tensor {a r : Expr R} {is : List Index} (h : a.tensor is = .ok r) :
    r.size ≤ a.size + 1 := by
  unfold tensor at h
  simp only [bind, Except.bind, pure, Except.pure, throw, throwThe, MonadExceptOf.throw] at h
  repeat' split at h
  all_goals grind [size_pos, size_unary, size_zeroOf]

/-- A list tensor makes at most one node over its items. -/
theorem size_stack {items : List (Expr R)} {r : Expr R} (h : stack items = .ok r) :
    r.size ≤ totalSize items + 1 := by
  unfold stack at h
  simp only [bind, Except.bind, pure, Except.pure] at h
  repeat' split at h
  all_goals grind [size_leaf, size_listTensor]

/-- Whatever an operator builds, it adds at most one node. -/
theorem size_apply_unary {op : UnaryOp} {a r : Expr R} (h : op.apply a = .ok r) :
    r.size ≤ a.size + 1 := by
  cases op with
  -- one constructor for each operator
  | math f => exact size_math h
  | abs => exact size_abs h
  | indexSum i => exact size_sumOver h
  | indexed is => exact size_index h
  | componentTensor is => exact size_tensor h
  | restricted side =>
    obtain rfl : a.restrict side = r := Except.ok.inj h
    exact size_restrict side a
  | grad => exact size_gradient h
  | referenceGrad => exact size_referenceGradient h
  | spatialDerivative is => exact size_derivative h
  | averaged region =>
    obtain rfl : a.average region = r := Except.ok.inj h
    exact size_average region a
  | labelled number =>
    obtain rfl : a.label number = r := Except.ok.inj h
    simp [label]

/-- The same for two operands. -/
theorem size_apply_binary {op : BinaryOp} {a b r : Expr R} (h : op.apply a b = .ok r) :
    r.size ≤ a.size + b.size + 1 := by
  cases op with
  | sum => exact size_add h
  | product => exact size_mul h
  | division => exact size_div h
  | power => exact size_pow h

end WeakForm.Expr
