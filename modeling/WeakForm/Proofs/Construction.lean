import WeakForm.Expr.Build

/-!
# What the constructors build

A constructor of `WeakForm.Expr.Build` checks its operands, then either folds or
puts its operator on top. For each of the constructors that can fold in more than
one way a predicate lists the cases, each with the guards it is reached under,
and an inversion lemma says that a result is one of them:

* `add_built`, `mul_built`, `div_built`, `pow_built` — algebra;
* `math_built`, `abs_built` — functions of one operand;
* `sumOver_built`, `index_built`, `tensor_built`, `stack_built` — indexing;
* `gradient_built`, `referenceGradient_built`, `derivative_built` — derivatives.

In the other direction, `exists_add` and its like say which operands pass every check. Scalar
ones do (`add_scalar`, `mul_scalar`, `div_scalar`, `pow_scalar`, `math_scalar`), so that
algebra and functions of scalar expressions are always built; an absolute value fails for
the least integer only (`abs_outcome`).
-/

namespace WeakForm.Expr

variable {R : Type}

/-- An expression whose literal can be read is that literal. -/
theorem literal?_eq_some {e : Expr R} {v : Literal R} (h : e.literal? = some v) :
    e = leaf (.literal v) := by
  unfold literal? at h
  split at h
  · rw [Option.some.inj h]
  · cases h

/-- A pattern for two values that fails has failed for one of them. -/
theorem none_or_none {α β : Type} {x : Option α} {y : Option β}
    (h : ∀ a b, (x, y) = (some a, some b) → False) : x = none ∨ y = none := by
  cases x with
  | none => exact .inl rfl
  | some a =>
    cases y with
    | none => exact .inr rfl
    | some b => exact (h a b rfl).elim

theorem eq_none {α : Type} {x : Option α} (h : ∀ a, x = some a → False) : x = none := by
  cases x with
  | none => rfl
  | some a => exact (h a rfl).elim

/-! ## Outcomes -/

section Outcomes

variable [Scalar R]

/-- A sum: an operand where the other is zero, a literal, or a node. -/
inductive Added (a b : Expr R) : Expr R → Prop
  | zeroLeft (ha : a.isZero) : Added a b b
  | zeroRight (ha : a.isZero = false) (hb : b.isZero) : Added a b a
  | literals {x y : Literal R} (ha : a = leaf (.literal x)) (hb : b = leaf (.literal y)) :
      Added a b (literal (x.add y))
  | node (ha : a.isZero = false) (hb : b.isZero = false)
      (hl : a.literal? = none ∨ b.literal? = none) : Added a b (binary .sum a b)

/-- A product: zero, an operand where the other is one, a literal, or a node. -/
inductive Multiplied (a b : Expr R) : Expr R → Prop
  | zero (h : a.isZero ∨ b.isZero) : Multiplied a b (zeroOf₂ .product a b)
  | oneLeft (h : a.isZero = false ∧ b.isZero = false) (ha : a.isOne) : Multiplied a b b
  | oneRight (h : a.isZero = false ∧ b.isZero = false) (ha : a.isOne = false) (hb : b.isOne) :
      Multiplied a b a
  | literals {x y : Literal R} (ha : a = leaf (.literal x)) (hb : b = leaf (.literal y)) :
      Multiplied a b (literal (x.mul y))
  | node (h : a.isZero = false ∧ b.isZero = false) (h₁ : a.isOne = false ∧ b.isOne = false)
      (hl : a.literal? = none ∨ b.literal? = none) : Multiplied a b (binary .product a b)

/-- A quotient: zero, the dividend where the divisor is one, a literal, or a node. -/
inductive Divided (a b : Expr R) : Expr R → Prop
  | zero (ha : a.isZero) : Divided a b (zeroOf₂ .division a b)
  | one (ha : a.isZero = false) (hb : b.isOne) : Divided a b a
  | literals {x y : Literal R} (ha : a = leaf (.literal x)) (hb : b = leaf (.literal y)) :
      Divided a b (literal (x.div y))
  | node (ha : a.isZero = false) (hb : b.isOne = false)
      (hl : a.literal? = none ∨ b.literal? = none) : Divided a b (binary .division a b)

/-- A power: the base where the exponent is one, a literal, or a node. -/
inductive Powered (a b : Expr R) : Expr R → Prop
  | one (hb : b.isOne) : Powered a b a
  | literals {x y : Literal R} (ha : a.constant? = some x) (hb : b.constant? = some y) :
      Powered a b (literal (x.pow y))
  | node (hb : b.isOne = false) (hl : a.constant? = none ∨ b.constant? = none) :
      Powered a b (binary .power a b)

/-- An elementary function: a literal or a node. -/
inductive Applied (f : MathFunction) (a : Expr R) : Expr R → Prop
  | literal {x : Literal R} (ha : a.constant? = some x) : Applied f a (literal (x.apply f))
  | node (ha : a.constant? = none) : Applied f a (unary (.math f) a)

/-- An absolute value: a zero, a literal, or a node. -/
inductive Absolute (a : Expr R) : Expr R → Prop
  | zero (ha : a.isZero) : Absolute a a
  | literal {x y : Literal R} (ha : a = leaf (.literal x)) (hx : x.abs? = some y) :
      Absolute a (literal y)
  | node (ha : a.isZero = false) (hl : a.literal? = none) : Absolute a (unary .abs a)

/-- An operator of which a zero operand gives a zero: that zero, or a node. -/
inductive ZeroOr (op : UnaryOp) (a : Expr R) : Expr R → Prop
  | zero (ha : a.isZero) : ZeroOr op a (zeroOf op a)
  | node (ha : a.isZero = false) : ZeroOr op a (unary op a)

/-- A derivative: the zero of a cellwise constant, or a node. -/
inductive Derived (op : UnaryOp) (a : Expr R) : Expr R → Prop
  | zero (ha : a.isCellwiseConstant) : Derived op a (zeroOf op a)
  | node (ha : a.isCellwiseConstant = false) : Derived op a (unary op a)

/-- A stack of items: a zero, or a node. -/
inductive Stacked (first : Expr R) (rest : List (Expr R)) : Expr R → Prop
  | zero (h : (first :: rest).all (·.isZero)) :
      Stacked first rest (leaf (.zero ((first :: rest).length :: first.shape) first.free))
  | node (h : (first :: rest).all (·.isZero) = false) :
      Stacked first rest (listTensor (first :: rest))

end Outcomes

/-! ## Inversion -/

section Algebra

variable [Scalar R] {a b r : Expr R}

/-- What adding gives: operands of one shape and one set of indices, added or folded. -/
theorem add_built (h : a.add b = .ok r) :
    a.shape = b.shape ∧ a.free = b.free ∧ Added a b r := by
  unfold add at h
  simp only [bind, Except.bind, pure, Except.pure, throw, throwThe, MonadExceptOf.throw] at h
  -- one case for each check and each fold, in the order of the source
  repeat' split at h
  all_goals cases h
  · next hs hf ha => exact ⟨hs, hf, .zeroLeft ha⟩
  · next hs hf ha hb => exact ⟨hs, hf, .zeroRight (by simpa using ha) hb⟩
  · next hs hf ha hb _ x y hl =>
    rw [Prod.mk.injEq] at hl
    exact ⟨hs, hf, .literals (literal?_eq_some hl.1) (literal?_eq_some hl.2)⟩
  · next hs hf ha hb _ hl =>
    exact ⟨hs, hf, .node (by simpa using ha) (by simpa using hb) (none_or_none hl)⟩

omit [Scalar R] in
/-- The operands agree about the dimensions of their indices, and all of these are kept. -/
theorem mergeFree_eq_ok {free : FreeIndices} : mergeFree a b = .ok free ↔
    a.free.conflict? b.free = none ∧ a.free.union b.free = free := by
  rw [mergeFree, FreeIndices.merge]
  cases a.free.conflict? b.free with
  | none => exact ⟨fun h => ⟨rfl, Except.ok.inj h⟩, fun h => congrArg Except.ok h.2⟩
  | some c => exact ⟨nofun, nofun⟩

/-- What multiplying gives: a scalar among the operands, and no index of two dimensions. -/
theorem mul_built (h : a.mul b = .ok r) :
    (a.shape = [] ∨ b.shape = []) ∧ a.free.conflict? b.free = none ∧ Multiplied a b r := by
  unfold mul at h
  simp only [bind, Except.bind, pure, Except.pure, throw, throwThe, MonadExceptOf.throw,
    List.isEmpty_iff] at h
  -- one case for each check and each fold
  repeat' split at h
  all_goals cases h
  · next hs _ _ hm hz => exact ⟨hs, (mergeFree_eq_ok.mp hm).1, .zero (by simpa using hz)⟩
  · next hs _ _ hm hz ha => exact ⟨hs, (mergeFree_eq_ok.mp hm).1, .oneLeft (by simpa using hz) ha⟩
  · next hs _ _ hm hz ha hb =>
    exact ⟨hs, (mergeFree_eq_ok.mp hm).1, .oneRight (by simpa using hz) (by simpa using ha) hb⟩
  · next hs _ _ hm hz ha hb _ x y hl =>
    rw [Prod.mk.injEq] at hl
    exact ⟨hs, (mergeFree_eq_ok.mp hm).1,
      .literals (literal?_eq_some hl.1) (literal?_eq_some hl.2)⟩
  · next hs _ _ hm hz ha hb _ hl =>
    exact ⟨hs, (mergeFree_eq_ok.mp hm).1,
      .node (by simpa using hz) ⟨by simpa using ha, by simpa using hb⟩ (none_or_none hl)⟩

/-- What dividing gives: a scalar divisor that is not zero, and indices on one side only, or the
same on both. -/
theorem div_built (h : a.div b = .ok r) :
    b.shape = [] ∧ b.isZero = false ∧
      (b.free = [] ∨ (a.shape = [] ∧ (a.free = [] ∨ a.free = b.free))) ∧ Divided a b r := by
  unfold div at h
  simp only [bind, Except.bind, pure, Except.pure, throw, throwThe, MonadExceptOf.throw,
    List.isEmpty_iff] at h
  -- one case for each check and each fold
  repeat' split at h
  all_goals cases h
  · next hs hb hf _ _ hc ha => exact ⟨hs, by simpa using hb, hf, .zero ha⟩
  · next hs hb hf _ _ hc ha h₁ => exact ⟨hs, by simpa using hb, hf, .one (by simpa using ha) h₁⟩
  · next hs hb hf _ _ hc ha h₁ _ x y hl =>
    rw [Prod.mk.injEq] at hl
    exact ⟨hs, by simpa using hb, hf, .literals (literal?_eq_some hl.1) (literal?_eq_some hl.2)⟩
  · next hs hb hf _ _ hc ha h₁ _ hl =>
    exact ⟨hs, by simpa using hb, hf,
      .node (by simpa using ha) (by simpa using h₁) (none_or_none hl)⟩

/-- What raising to a power gives: a scalar base, and an exponent without indices. -/
theorem pow_built (h : a.pow b = .ok r) :
    a.shape = [] ∧ b.shape = [] ∧ b.free = [] ∧ Powered a b r := by
  unfold pow at h
  simp only [bind, Except.bind, pure, Except.pure, throw, throwThe, MonadExceptOf.throw,
    isScalar, Bool.and_eq_true, List.isEmpty_iff] at h
  -- one case for each check and each fold
  repeat' split at h
  all_goals cases h
  · next ha hb h₁ => exact ⟨ha, hb.1, hb.2, .one h₁⟩
  · next ha hb h₁ _ x y hl =>
    rw [Prod.mk.injEq] at hl
    exact ⟨ha, hb.1, hb.2, .literals hl.1 hl.2⟩
  · next ha hb h₁ _ hl => exact ⟨ha, hb.1, hb.2, .node (by simpa using h₁) (none_or_none hl)⟩

/-- A function is applied to a scalar. -/
theorem math_built {f : MathFunction} (h : a.math f = .ok r) : a.shape = [] ∧ Applied f a r := by
  unfold math at h
  simp only [bind, Except.bind, pure, Except.pure, throw, throwThe, MonadExceptOf.throw,
    List.isEmpty_iff] at h
  repeat' split at h
  all_goals cases h
  · next hs _ x hx => exact ⟨hs, .literal hx⟩
  · next hs _ hx => exact ⟨hs, .node (eq_none hx)⟩

/-- An absolute value is built, folded, or the operand itself. -/
theorem abs_built (h : a.abs = .ok r) : Absolute a r := by
  unfold abs at h
  repeat' split at h
  all_goals cases h
  · next ha => exact .zero ha
  · next ha _ v hv _ w hw => exact .literal (literal?_eq_some hv) hw
  · next ha _ hv => exact .node (by simpa using ha) hv

/-! ## What passes the checks -/

/-- Operands of one shape and with the same free indices have a sum. -/
theorem exists_add (hs : a.shape = b.shape) (hf : a.free = b.free) : ∃ r, a.add b = .ok r := by
  unfold add
  simp only [bind, Except.bind, pure, Except.pure, hs, hf, if_pos]
  repeat' split
  all_goals exact ⟨_, rfl⟩

/-- Factors with no dimension in conflict have a product. -/
theorem exists_mul (hs : a.shape = [] ∨ b.shape = []) (hc : a.free.conflict? b.free = none) :
    ∃ r, a.mul b = .ok r := by
  unfold mul
  simp only [bind, Except.bind, pure, Except.pure, List.isEmpty_iff, hs, if_true,
    mergeFree_eq_ok.mpr ⟨hc, rfl⟩]
  repeat' split
  all_goals exact ⟨_, rfl⟩

/-- A scalar that is not zero divides. -/
theorem exists_div (hs : b.shape = []) (hz : b.isZero = false)
    (hf : b.free = [] ∨ (a.shape = [] ∧ (a.free = [] ∨ a.free = b.free)))
    (hc : a.free.conflict? b.free = none) : ∃ r, a.div b = .ok r := by
  unfold div
  simp only [bind, Except.bind, pure, Except.pure, List.isEmpty_iff, hs, hz, hf, if_true,
    mergeFree_eq_ok.mpr ⟨hc, rfl⟩, Bool.false_eq_true, if_false]
  repeat' split
  all_goals exact ⟨_, rfl⟩

/-- A scalar has a power. -/
theorem exists_pow (hs : a.shape = []) (hb : b.isScalar) : ∃ r, a.pow b = .ok r := by
  unfold pow
  simp only [bind, Except.bind, pure, Except.pure, hs, hb, List.isEmpty_nil, if_true]
  repeat' split
  all_goals exact ⟨_, rfl⟩

/-- A scalar has a function value. -/
theorem exists_math (f : MathFunction) (hs : a.shape = []) : ∃ r, a.math f = .ok r := by
  unfold math
  simp only [bind, Except.bind, pure, Except.pure, hs, List.isEmpty_nil, if_true]
  split
  · exact ⟨_, rfl⟩
  · exact ⟨_, rfl⟩

omit [Scalar R] in
theorem isScalar_iff {e : Expr R} : e.isScalar ↔ e.shape = [] ∧ e.free = [] := by
  simp [isScalar]

/-- Scalar operands pass every check of a sum. -/
theorem add_scalar (ha : a.isScalar) (hb : b.isScalar) : ∃ r, a.add b = .ok r := by
  obtain ⟨hsa, hfa⟩ := isScalar_iff.mp ha
  obtain ⟨hsb, hfb⟩ := isScalar_iff.mp hb
  exact exists_add (hsa.trans hsb.symm) (hfa.trans hfb.symm)

/-- A scalar operand passes every check of a product, whatever the other one is. -/
theorem mul_scalar (ha : a.isScalar) : ∃ r, a.mul b = .ok r := by
  obtain ⟨hsa, hfa⟩ := isScalar_iff.mp ha
  refine exists_mul (.inl hsa) ?_
  rw [hfa, FreeIndices.conflict?]

/-- Scalar operands pass every check of a quotient, if the divisor is not zero. -/
theorem div_scalar (ha : a.isScalar) (hb : b.isScalar) (hz : b.isZero = false) :
    ∃ r, a.div b = .ok r := by
  obtain ⟨hsb, hfb⟩ := isScalar_iff.mp hb
  refine exists_div hsb hz (.inl hfb) ?_
  rw [(isScalar_iff.mp ha).2, FreeIndices.conflict?]

/-- Scalar operands pass every check of a power. -/
theorem pow_scalar (ha : a.isScalar) (hb : b.isScalar) : ∃ r, a.pow b = .ok r :=
  exists_pow (isScalar_iff.mp ha).1 hb

/-- A scalar operand passes the check of a function. -/
theorem math_scalar (f : MathFunction) (ha : a.isScalar) : ∃ r, a.math f = .ok r :=
  exists_math f (isScalar_iff.mp ha).1

/-- An absolute value fails for a literal without one only. -/
theorem abs_outcome (a : Expr R) : (∃ r, a.abs = .ok r) ∨
    ∃ v, a = leaf (.literal v) ∧ v.abs? = none ∧ a.abs = .error .overflow := by
  unfold abs
  split
  · exact .inl ⟨_, rfl⟩
  · split
    · next v hv =>
      split
      · exact .inl ⟨_, rfl⟩
      · next hnone => exact .inr ⟨v, literal?_eq_some hv, hnone, rfl⟩
    · exact .inl ⟨_, rfl⟩

end Algebra

section Indexing

variable {a : Expr R}

/-- All items have the shape and the indices of the first. -/
theorem checkItems_ok {first : Expr R} {items : List (Expr R)}
    (h : checkItems first items = .ok ()) :
    ∀ item ∈ items, item.shape = first.shape ∧ item.free = first.free := by
  induction items with
  | nil => simp
  | cons item items ih =>
    simp only [checkItems, bind, Except.bind, throw, throwThe, MonadExceptOf.throw] at h
    -- the checks of the first item were passed
    repeat' split at h
    all_goals try cases h
    next hs hf =>
    intro item' h'
    rcases List.mem_cons.mp h' with rfl | h'
    · exact ⟨hs, hf⟩
    · exact ih h item' h'

/-- The first axis of a tensor takes a free index, the others one that is left. -/
theorem tensorAxes_cons {i : IndexId} {is : List Index} {free : FreeIndices} {ids : List IndexId}
    (h : tensorAxes a (.free i :: is) free = .ok ids) : free.has i ∧
      ∃ rest, tensorAxes a is (free.erase i) = .ok rest ∧ ids = i :: rest := by
  simp only [tensorAxes, bind, Except.bind, pure, Except.pure, throw, throwThe,
    MonadExceptOf.throw] at h
  repeat' split at h
  all_goals cases h
  next hi _ rest hrest => exact ⟨hi, rest, hrest, rfl⟩

/-- The axes of a tensor are given free indices. -/
theorem tensorAxes_ok {is : List Index} {free : FreeIndices} {ids : List IndexId}
    (h : tensorAxes a is free = .ok ids) : is = ids.map .free := by
  induction is generalizing free ids with
  | nil =>
    cases h
    rfl
  | cons j is ih =>
    cases j with
    | fixed p => cases h
    | free i =>
      obtain ⟨-, rest, hrest, rfl⟩ := tensorAxes_cons h
      -- each axis is one of the free indices in turn
      rw [List.map_cons, ih hrest]

variable [Scalar R] {r : Expr R}

/-- A sum is over a free index. -/
theorem sumOver_built {i : IndexId} (h : a.sumOver i = .ok r) :
    a.free.has i ∧ ZeroOr (.indexSum i) a r := by
  unfold sumOver at h
  simp only [bind, Except.bind, pure, Except.pure, throw, throwThe, MonadExceptOf.throw] at h
  repeat' split at h
  all_goals cases h
  · next hi ha => exact ⟨hi, .zero ha⟩
  · next hi ha => exact ⟨hi, .node (by simpa using ha)⟩

/-- A free index can be summed over. -/
theorem exists_sumOver {i : IndexId} (h : a.free.has i) : ∃ r, a.sumOver i = .ok r := by
  unfold sumOver
  simp only [bind, Except.bind, pure, Except.pure, h, if_true]
  split
  · exact ⟨_, rfl⟩
  · exact ⟨_, rfl⟩

/-- An indexing without indices is its operand. -/
theorem index_built {is : List Index} (h : a.index is = .ok r) :
    is.length = a.rank ∧ ((is = [] ∧ r = a) ∨
      (is ≠ [] ∧ checkIndices a is a.shape 0 [] = .ok () ∧ ZeroOr (.indexed is) a r)) := by
  unfold index at h
  simp only [bind, Except.bind, pure, Except.pure, throw, throwThe, MonadExceptOf.throw,
    List.isEmpty_iff] at h
  repeat' split at h
  all_goals cases h
  · next hl his => exact ⟨hl, .inl ⟨his, rfl⟩⟩
  · next hl his _ _ hc ha => exact ⟨hl, .inr ⟨his, hc, .zero ha⟩⟩
  · next hl his _ _ hc ha => exact ⟨hl, .inr ⟨his, hc, .node (by simpa using ha)⟩⟩

/-- Entries that are in order can index. -/
theorem exists_index {is : List Index} (hl : is.length = a.rank)
    (hc : checkIndices a is a.shape 0 [] = .ok ()) : ∃ r, a.index is = .ok r := by
  unfold index
  simp only [bind, Except.bind, pure, Except.pure, hl, hc, if_true]
  repeat' split
  all_goals exact ⟨_, rfl⟩

/-- A tensor without axes is its operand. -/
theorem tensor_built {is : List Index} (h : a.tensor is = .ok r) :
    a.shape = [] ∧ ((is = [] ∧ r = a) ∨
      (is ≠ [] ∧ ∃ ids, tensorAxes a is a.free = .ok ids ∧ ZeroOr (.componentTensor ids) a r)) := by
  unfold tensor at h
  simp only [bind, Except.bind, pure, Except.pure, throw, throwThe, MonadExceptOf.throw,
    List.isEmpty_iff] at h
  repeat' split at h
  all_goals cases h
  · next hs his => exact ⟨hs, .inl ⟨his, rfl⟩⟩
  · next hs his _ ids hc ha => exact ⟨hs, .inr ⟨his, ids, hc, .zero ha⟩⟩
  · next hs his _ ids hc ha => exact ⟨hs, .inr ⟨his, ids, hc, .node (by simpa using ha)⟩⟩

/-- A tensor over given identities. Without axes it is its operand. -/
theorem tensor_ids_built {ids : List IndexId} (h : a.tensor (ids.map .free) = .ok r) :
    a.shape = [] ∧ ((ids = [] ∧ r = a) ∨
      (ids ≠ [] ∧ tensorAxes a (ids.map .free) a.free = .ok ids ∧
        ZeroOr (.componentTensor ids) a r)) := by
  obtain ⟨hs, ⟨hids, rfl⟩ | ⟨hids, ids', hax, hr⟩⟩ := tensor_built h
  · exact ⟨hs, .inl ⟨List.map_eq_nil_iff.mp hids, rfl⟩⟩
  · have heq : ids = ids' :=
      (List.map_inj_right fun _ _ h => Index.free.inj h).mp (tensorAxes_ok hax)
    subst heq
    exact ⟨hs, .inr ⟨fun h => hids (by rw [h]; rfl), hax, hr⟩⟩

/-- A list tensor has at least one item, and all of its items look alike. -/
theorem stack_built {items : List (Expr R)} (h : stack items = .ok r) :
    ∃ first rest, items = first :: rest ∧
      (∀ item ∈ rest, item.shape = first.shape ∧ item.free = first.free) ∧
      Stacked first rest r := by
  unfold stack at h
  simp only [bind, Except.bind, pure, Except.pure] at h
  repeat' split at h
  all_goals cases h
  · next first rest _ _ hc hz => exact ⟨first, rest, rfl, checkItems_ok hc, .zero hz⟩
  · next first rest _ _ hc hz =>
    exact ⟨first, rest, rfl, checkItems_ok hc, .node (by simpa using hz)⟩

end Indexing

section Derivatives

variable {a r : Expr R}

/-- A derivative is taken where there is a domain. -/
theorem derivativeDomain_ok {operator : String} {d : Domain}
    (h : derivativeDomain operator a = .ok d) : a.domain? = some d := by
  unfold derivativeDomain at h
  split at h
  · next d' hd => rw [hd, Except.ok.inj h]
  · cases h

/-- Where there is a domain, a derivative can be taken. -/
theorem derivativeDomain_some {d : Domain} (h : a.domain? = some d) (operator : String) :
    derivativeDomain operator a = .ok d := by
  unfold derivativeDomain
  rw [h]

/-- A derivative that asks for nothing but a domain, as both gradients do. -/
theorem exists_derived (h : a.domain?.isSome) (operator : String) (zero node : Expr R) :
    ∃ r, (do
      let _ ← derivativeDomain operator a
      if a.isCellwiseConstant then return zero
      return node : Checked R (Expr R)) = .ok r := by
  obtain ⟨d, hd⟩ := Option.isSome_iff_exists.mp h
  simp only [bind, Except.bind, pure, Except.pure, derivativeDomain_some hd]
  split
  · exact ⟨_, rfl⟩
  · exact ⟨_, rfl⟩

theorem exists_gradient (h : a.domain?.isSome) : ∃ r, a.gradient = .ok r :=
  exists_derived h "grad" _ _

theorem exists_referenceGradient (h : a.domain?.isSome) : ∃ r, a.referenceGradient = .ok r :=
  exists_derived h "reference_grad" _ _

/-- An expression over a domain has derivatives along the directions of that domain. -/
theorem exists_derivative {is : List Index} {d : Domain} (hd : a.domain? = some d)
    (hc : checkDirections a d.gdim is = .ok ()) : ∃ r, a.derivative is = .ok r := by
  unfold derivative
  simp only [bind, Except.bind, pure, Except.pure, derivativeDomain_some hd, hc]
  repeat' split
  all_goals exact ⟨_, rfl⟩

/-- Each gradient is one node over its operand, or zero where nothing varies. -/
theorem derived_built {operator : String} {op : UnaryOp}
    (h : (do
      let _ ← derivativeDomain operator a
      if a.isCellwiseConstant then return zeroOf op a
      return unary op a : Checked R (Expr R)) = .ok r) : a.domain?.isSome ∧ Derived op a r := by
  simp only [bind, Except.bind, pure, Except.pure] at h
  repeat' split at h
  all_goals cases h
  · next _ _ hd hc => exact ⟨by simp [derivativeDomain_ok hd], .zero hc⟩
  · next _ _ hd hc => exact ⟨by simp [derivativeDomain_ok hd], .node (by simpa using hc)⟩

theorem gradient_built (h : a.gradient = .ok r) : a.domain?.isSome ∧ Derived .grad a r :=
  derived_built h

theorem referenceGradient_built (h : a.referenceGradient = .ok r) :
    a.domain?.isSome ∧ Derived .referenceGrad a r :=
  derived_built h

/-- A derivative in no direction is its operand. -/
theorem derivative_built {is : List Index} (h : a.derivative is = .ok r) :
    (is = [] ∧ r = a) ∨ (is ≠ [] ∧ ∃ d, a.domain? = some d ∧
      checkDirections a d.gdim is = .ok () ∧ Derived (.spatialDerivative is) a r) := by
  unfold derivative at h
  simp only [bind, Except.bind, pure, Except.pure, List.isEmpty_iff] at h
  repeat' split at h
  all_goals cases h
  · next his => exact .inl ⟨his, rfl⟩
  · next his _ d hd _ _ hc ha => exact .inr ⟨his, d, derivativeDomain_ok hd, hc, .zero ha⟩
  · next his _ d hd _ _ hc ha =>
    exact .inr ⟨his, d, derivativeDomain_ok hd, hc, .node (by simpa using ha)⟩

end Derivatives

/-! ## Any operator -/

section Outcome

variable [Scalar R] {a b r : Expr R}

omit [Scalar R] in
/-- A constant value is a leaf. -/
theorem leaf_of_isConstantValue (h : a.isConstantValue) : ∃ t, a = leaf t := by
  unfold isConstantValue at h
  split at h
  · exact ⟨_, rfl⟩
  · exact ⟨_, rfl⟩
  · cases h

/-- Literals are constant. -/
theorem isConstantValue_literal (v : Literal R) : (literal v).isConstantValue := by
  unfold literal
  split
  · rfl
  · rfl

/-- What an operator over one operand builds: the operand, a constant, or a node. -/
theorem unary_outcome {op : UnaryOp} (h : op.apply a = .ok r) :
    r = a ∨ r.isConstantValue ∨ r = unary op a := by
  -- zero is a constant value
  have hzeroOr : ZeroOr op a r → r = a ∨ r.isConstantValue ∨ r = unary op a := fun hr => by
    -- a node, or the zero in its place
    cases hr with
    | zero => exact .inr (.inl rfl)
    | node => exact .inr (.inr rfl)
  have hderived : Derived op a r → r = a ∨ r.isConstantValue ∨ r = unary op a := fun hr => by
    cases hr with
    | zero => exact .inr (.inl rfl)
    | node => exact .inr (.inr rfl)
  cases op with
  | math f =>
    cases (math_built h).2 with
    | literal => exact .inr (.inl (isConstantValue_literal _))
    | node => exact .inr (.inr rfl)
  | abs =>
    cases abs_built h with
    | zero => exact .inl rfl
    | literal => exact .inr (.inl (isConstantValue_literal _))
    | node => exact .inr (.inr rfl)
  | indexSum i => exact hzeroOr (sumOver_built h).2
  | indexed is =>
    obtain ⟨-, ⟨-, rfl⟩ | ⟨-, -, hr⟩⟩ := index_built h
    · exact .inl rfl
    · exact hzeroOr hr
  | componentTensor ids =>
    obtain ⟨-, ⟨-, rfl⟩ | ⟨-, -, hr⟩⟩ := tensor_ids_built h
    · exact .inl rfl
    · exact hzeroOr hr
  | restricted side =>
    obtain rfl : a.restrict side = r := Except.ok.inj h
    unfold restrict
    split
    · exact .inl rfl
    · exact .inr (.inr rfl)
  | grad => exact hderived (gradient_built h).2
  | referenceGrad => exact hderived (referenceGradient_built h).2
  | spatialDerivative is =>
    rcases derivative_built h with ⟨-, rfl⟩ | ⟨-, -, -, -, hr⟩
    · exact .inl rfl
    · exact hderived hr
  | averaged region =>
    obtain rfl : a.average region = r := Except.ok.inj h
    unfold average
    split
    · exact .inl rfl
    · exact .inr (.inr rfl)
  | labelled number => exact .inr (.inr (Except.ok.inj h).symm)

/-- What an operator over two operands builds: an operand, a constant, or a node. -/
theorem binary_outcome {op : BinaryOp} (h : op.apply a b = .ok r) :
    r = a ∨ r = b ∨ r.isConstantValue ∨ r = binary op a b := by
  -- every construction is folded to an operand or a constant value, or makes the node
  cases op with
  -- one constructor for each operator
  | sum =>
    cases (add_built h).2.2 with
    | zeroLeft => exact .inr (.inl rfl)
    | zeroRight => exact .inl rfl
    | literals => exact .inr (.inr (.inl (isConstantValue_literal _)))
    | node => exact .inr (.inr (.inr rfl))
  | product =>
    cases (mul_built h).2.2 with
    | zero => exact .inr (.inr (.inl rfl))
    | oneLeft => exact .inr (.inl rfl)
    | oneRight => exact .inl rfl
    | literals => exact .inr (.inr (.inl (isConstantValue_literal _)))
    | node => exact .inr (.inr (.inr rfl))
  | division =>
    cases (div_built h).2.2.2 with
    | zero => exact .inr (.inr (.inl rfl))
    | one => exact .inl rfl
    | literals => exact .inr (.inr (.inl (isConstantValue_literal _)))
    | node => exact .inr (.inr (.inr rfl))
  | power =>
    cases (pow_built h).2.2.2 with
    | one => exact .inl rfl
    | literals => exact .inr (.inr (.inl (isConstantValue_literal _)))
    | node => exact .inr (.inr (.inr rfl))

end Outcome

end WeakForm.Expr
