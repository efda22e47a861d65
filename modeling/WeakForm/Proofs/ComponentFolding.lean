import WeakForm.Proofs.Components
import WeakForm.Proofs.GraphTargets

/-!
# Folding keeps components

The constructors fold: they return an operand, a literal or a zero where they could have put
their operator on top. A component of what they return is what they return for components of
the operands, whichever way they folded.

Products are the exception. A left factor of which only some components are the literal one
is returned when the right factor is one, but a component that is one returns the right
factor; and the integer one and the real one are different literals.

* `component_insertable`, `Scalarizable.component_canonical` — what components are;
* `component_constant` — the component of a constant;
* `component_apply` — operators of one operand;
* `component_add`, `component_mul`, `component_div`, `component_pow` — algebra;
* `component_apply₂` — operators of two operands.
-/

namespace WeakForm.Expr

variable {R : Type} [Scalar R] {a b e r s x y : Expr R} {c : List Nat} {σ : Env}

/-! ## What components are -/

/-- What holds of all terms and is kept by sums holds of a sum of terms. -/
theorem sumUpTo_induct {P : Expr R → Prop} {term : Nat → Option (Expr R)} {n : Nat}
    (hterm : ∀ j ≤ n, ∀ s, term j = some s → P s)
    (hadd : ∀ x y s, P x → P y → x.add y = .ok s → P s) (h : sumUpTo term n = some s) : P s := by
  induction n generalizing s with
  | zero => exact hterm 0 (Nat.le_refl 0) s h
  | succ n ih =>
    obtain ⟨x, hx, h⟩ := Option.bind_eq_some_iff.mp h
    obtain ⟨y, hy, h⟩ := Option.bind_eq_some_iff.mp h
    have hx := ih (fun j hj => hterm j (by omega)) hx
    exact hadd x y s hx (hterm (n + 1) (Nat.le_refl _) y hy) (toOption_eq_some.mp h)

omit [Scalar R] in
/-- A component of a chain is a chain. -/
theorem isModifiedTerminal_leafAt (hm : e.isModifiedTerminal) :
    (e.leafAt c σ).isModifiedTerminal := by
  have hmap : (e.mapIndices σ.fix).isModifiedTerminal := by
    rw [isModifiedTerminal_mapIndices, hm]
  unfold leafAt
  split
  · exact hmap
  · rw [isModifiedTerminal, hmap]
    rfl

/-- A component of a terminal can be inserted. -/
theorem leafComponent_insertable (hm : e.isModifiedTerminal) (h : e.leafComponent c σ = some s) :
    Insertable s := by
  cases hz : e.isZero with
  | true =>
    rw [leafComponent, if_pos hz] at h
    cases h
    exact insertable_leaf isScalar_zero
  | false =>
    obtain ⟨rfl, m, hdescriptor⟩ := (leafComponent_eq_some hz).mp h
    exact .terminal (isModifiedTerminal_leafAt hm) hdescriptor

/-- **Components can be put into a graph.** -/
theorem component_insertable (h : e.component c σ = some s) : Insertable s := by
  induction e generalizing c σ s with
  | leaf t => exact leafComponent_insertable rfl h
  | listTensor => cases h
  | binary op a b iha ihb =>
    obtain ⟨x, y, hx, hy, h⟩ := binaryComponent_eq_some.mp h
    exact (iha hx).apply₂ (ihb hy) h
  -- a chain has components of its own; other operators have those of their operands
  | unary op a ih =>
    rw [component] at h
    split at h
    · next hm => exact leafComponent_insertable hm h
    cases op with
    | math f =>
      obtain ⟨x, hx, h⟩ := Option.bind_eq_some_iff.mp h
      exact (ih hx).apply rfl (show UnaryOp.apply (.math f) x = .ok s from toOption_eq_some.mp h)
    | abs =>
      obtain ⟨x, hx, h⟩ := Option.bind_eq_some_iff.mp h
      exact (ih hx).apply rfl (show UnaryOp.apply .abs x = .ok s from toOption_eq_some.mp h)
    | indexSum i =>
      rw [unaryComponent] at h
      -- a sum without terms has no component
      cases hn : (a.free.dim? i).getD 0 with
      | zero =>
        rw [hn] at h
        cases h
      | succ n =>
        rw [hn] at h
        refine sumUpTo_induct (fun j _ s hs => ih hs) (fun x y s hx hy hs => ?_) h
        exact hx.apply₂ hy (show BinaryOp.apply .sum x y = .ok s from hs)
    | indexed is => exact ih h
    | componentTensor | restricted | grad | referenceGrad | spatialDerivative | averaged
      | labelled => cases h

/-- Components are scalar. -/
theorem component_isScalar (h : e.component c σ = some s) : s.isScalar :=
  (component_insertable h).isScalar

/-- A component of a canonical expression is canonical. -/
theorem Scalarizable.component_canonical [DecidableEq R] (h : Scalarizable e) (hc : Canonical e)
    (hcs : InShape c e.shape) (hσ : e.free.InRange σ) (hs : e.component c σ = some s) :
    Canonical s := by
  obtain ⟨as, has, hlist⟩ := h.scalarize hc
  have hplace := (hlist.entry c σ hcs hσ).trans hs
  exact scalarize_canonical hc has s (Array.mem_of_getElem? hplace)

/-! ## Constants -/

/-- A scalar constant is its own component. -/
theorem component_constant (hc : Canonical e) (hconst : e.isConstantValue) (hs : e.isScalar) :
    e.component [] σ = some e := by
  cases hz : e.isZero with
  | true => rw [component_zero hz, hc.eq_zero hs hz]
  | false =>
    obtain ⟨t, rfl⟩ := leaf_of_isConstantValue hconst
    rw [component_chain rfl]
    exact (leafComponent_eq_some hz).mpr ⟨rfl, exists_analyse_leaf hs⟩

/-- A constant scalar is its own component. -/
theorem eq_of_component (hc : Canonical e) (hconst : e.isConstantValue) (hs : e.isScalar)
    (h : e.component (c.take e.rank) σ = some s) : s = e := by
  rw [rank, (isScalar_iff.mp hs).1, List.length_nil, List.take_zero,
    component_constant hc hconst hs] at h
  exact (Option.some.inj h).symm

/-- One is a constant value. -/
theorem isConstantValue_of_isOne (h : e.isOne) : e.isConstantValue := by
  unfold isOne at h
  split at h
  · rfl
  · cases h

/-- So is any literal that is told to be constant. -/
theorem isConstantValue_of_constant? {v : Literal R} (h : e.constant? = some v) :
    e.isConstantValue := by
  unfold constant? at h
  split at h
  · rfl
  · rfl
  · cases h

/-- The literal one is its own component. -/
theorem eq_of_component_isOne (hc : Canonical e) (h : e.isOne)
    (hs : e.component (c.take e.rank) σ = some s) : s = e :=
  eq_of_component hc (isConstantValue_of_isOne h) (isScalar_iff.mpr (attributes_of_isOne h)) hs

/-- The component of a constant operand is the operand. -/
theorem eq_of_component_constant? {v : Literal R} (hc : Canonical e) (h : e.constant? = some v)
    (hs : e.component (c.take e.rank) σ = some s) : s = e :=
  eq_of_component hc (isConstantValue_of_constant? h)
    (isScalar_iff.mpr (attributes_of_constant? h)) hs

/-! ## Algebra on scalars -/

section Scalars

omit [Scalar R] in
/-- The zero over two scalars is the plain one. -/
theorem zeroOf₂_scalar {op : BinaryOp} (hx : x.isScalar) (hy : y.isScalar) :
    zeroOf₂ op x y = zero [] := by
  obtain ⟨hshape, hfree⟩ := isScalar_iff.mp (isScalar_binary op hx hy)
  rw [shape_binary] at hshape
  rw [free_binary] at hfree
  rw [zeroOf₂, hshape, hfree]
  rfl

/-- A scalar zero is not added. -/
theorem eq_of_zero_add (h : (zero []).add y = .ok s) : s = y := by
  cases (add_built h).2.2 with
  | zeroLeft => rfl
  | zeroRight ha => cases ha
  | literals ha => cases ha
  | node ha => cases ha

/-- Adding zero on the right, likewise. -/
theorem eq_of_add_zero (hx : Canonical x) (hsx : x.isScalar) (h : x.add (zero []) = .ok s) :
    s = x := by
  cases (add_built h).2.2 with
  | zeroLeft ha => exact (hx.eq_zero hsx ha).symm
  | zeroRight => rfl
  | literals _ hb => cases hb
  | node _ hb => cases hb

/-- Multiplying with zero gives zero. -/
theorem eq_of_mul_zero (hx : x.isScalar) (hy : y.isScalar) (hz : x = zero [] ∨ y = zero [])
    (h : x.mul y = .ok s) : s = zero [] := by
  cases (mul_built h).2.2 with
  | zero => exact zeroOf₂_scalar hx hy
  -- any other outcome has checked that neither factor is zero
  | oneLeft hne | oneRight hne | node hne =>
    rcases hz with rfl | rfl
    · cases hne.1
    · cases hne.2
  | literals ha hb =>
    rcases hz with rfl | rfl
    · cases ha
    · cases hb

/-- A literal that is one is not zero. -/
theorem Canonical.isZero_of_isOne (hc : Canonical e) (h : e.isOne) : e.isZero = false := by
  cases hc with
  | @leaf t ht =>
    cases t with
    | literal v => exact ht
    | zero | argument | coefficient | geometry => cases h
  | unary | binary | listTensor => cases h

/-- The literal one on the left gives way to the other factor. -/
theorem eq_of_one_mul (hcx : Canonical x) (hx : x.isScalar) (hcy : Canonical y) (hy : y.isScalar)
    (hone : x.isOne) (h : x.mul y = .ok s) : s = y := by
  -- zero is folded first, then the one on the left
  by_cases hz : y.isZero
  · obtain rfl := hcy.eq_zero hy hz
    exact eq_of_mul_zero hx hy (.inr rfl) h
  · unfold mul at h
    simp only [bind, Except.bind, pure, Except.pure, throw, throwThe, MonadExceptOf.throw, hone,
      hcx.isZero_of_isOne hone, hz, Bool.or_false, if_true, Bool.false_eq_true, if_false] at h
    repeat' split at h
    all_goals cases h
    rfl

/-- The literal one on the right is left out, unless the other factor is one, too. -/
theorem eq_of_mul_one (hcx : Canonical x) (hx : x.isScalar) (hcy : Canonical y) (hy : y.isScalar)
    (hone : y.isOne) (hsame : x.isOne → x = y) (h : x.mul y = .ok s) : s = x := by
  by_cases hx₁ : x.isOne
  · rw [hsame hx₁]
    exact eq_of_one_mul hcx hx hcy hy hx₁ h
  by_cases hz : x.isZero
  · obtain rfl := hcx.eq_zero hx hz
    exact eq_of_mul_zero hx hy (.inl rfl) h
  -- neither zero nor one on the left: the fold for a one on the right applies
  · unfold mul at h
    simp only [bind, Except.bind, pure, Except.pure, throw, throwThe, MonadExceptOf.throw, hone,
      hcy.isZero_of_isOne hone, hz, hx₁, Bool.or_false, if_true, Bool.false_eq_true,
      if_false] at h
    repeat' split at h
    all_goals cases h
    rfl

/-- Zero divided by anything is zero. -/
theorem eq_of_zero_div (hy : y.isScalar) (h : (zero []).div y = .ok s) : s = zero [] := by
  cases (div_built h).2.2.2 with
  | zero => exact zeroOf₂_scalar isScalar_zero hy
  | one ha => cases ha
  | literals ha => cases ha
  | node ha => cases ha

/-- The literal one does not divide. -/
theorem eq_of_div_one (hcx : Canonical x) (hx : x.isScalar) (hy : y.isScalar) (hone : y.isOne)
    (h : x.div y = .ok s) : s = x := by
  -- as for products
  by_cases hz : x.isZero
  · obtain rfl := hcx.eq_zero hx hz
    exact eq_of_zero_div hy h
  · unfold div at h
    simp only [bind, Except.bind, pure, Except.pure, throw, throwThe, MonadExceptOf.throw, hone,
      hz, if_true, Bool.false_eq_true, if_false] at h
    repeat' split at h
    all_goals cases h
    rfl

/-- The first power is the base. -/
theorem eq_of_pow_one (hone : y.isOne) (h : x.pow y = .ok s) : s = x := by
  unfold pow at h
  simp only [bind, Except.bind, pure, Except.pure, throw, throwThe, MonadExceptOf.throw, hone,
    if_true] at h
  repeat' split at h
  all_goals cases h
  rfl

end Scalars

/-! ## One operand -/

section Unary

/-- A sum of zeros is zero. -/
theorem sumTerms_zero {term : Nat → Option (Expr R)} {n : Nat}
    (hterm : ∀ j, term j = some (zero [])) (h : sumTerms term n = some s) : s = zero [] := by
  cases n with
  | zero => cases h
  | succ n =>
    refine sumUpTo_induct (P := (· = zero [])) (fun j _ s hs => ?_) (fun x y s hx hy hs => ?_) h
    · rw [hterm j] at hs
      exact (Option.some.inj hs).symm
    · rw [hx, hy] at hs
      exact eq_of_zero_add hs

/-- A function of a constant is its own component. -/
theorem component_literal_of {op : UnaryOp} {v : Literal R} (hca : Canonical a)
    (ha : a.constant? = some v) (hr : op.apply a = .ok r) (hconst : r.isConstantValue)
    (hscalar : r.isScalar) (hc : InShape c r.shape)
    (hs : ((a.component c σ).bind fun x => (op.apply x).toOption) = some s) :
    r.component c σ = some s := by
  rw [(isScalar_iff.mp hscalar).1] at hc
  obtain rfl := List.eq_nil_of_length_eq_zero hc.length
  -- a constant is its own only component
  have hx : a.component [] σ = some a := component_constant hca (isConstantValue_of_constant? ha)
    (isScalar_iff.mpr (attributes_of_constant? ha))
  rw [hx, Option.bind_some, toOption_eq_some, hr] at hs
  cases hs
  exact component_constant (canonical_unary hca hr) hconst hscalar

/-- **A component of what an operator builds** is what it builds for the component. -/
theorem component_apply {op : UnaryOp} (hca : Canonical a) (hop : op.ByComponents)
    (hr : op.apply a = .ok r) (hc : InShape c r.shape)
    (hs : unaryComponent op a a.component c σ = some s) : r.component c σ = some s := by
  -- where nothing was folded, the component is that of the node
  have hnode : r = unary op a → r.component c σ = some s := by
    rintro rfl
    rw [component_unary hr hop hc, hs]
  cases op with
  | math f =>
    cases (math_built hr).2 with
    | literal ha =>
      exact component_literal_of hca ha hr (isConstantValue_literal _)
        (isScalar_iff.mpr (attributes_literal _)) hc hs
    | node => exact hnode rfl
  | abs =>
    cases abs_built hr with
    | zero ha =>
      rw [unaryComponent, component_zero ha] at hs
      rw [component_zero ha, ← hs]
      rfl
    | literal ha =>
      exact component_literal_of hca (by rw [ha]; rfl) hr (isConstantValue_literal _)
        (isScalar_iff.mpr (attributes_literal _)) hc hs
    | node => exact hnode rfl
  | indexSum i =>
    cases (sumOver_built hr).2 with
    | zero ha =>
      rw [component_zero rfl, sumTerms_zero (fun j => component_zero ha) hs]
    | node => exact hnode rfl
  | indexed is =>
    obtain ⟨hl, ⟨rfl, rfl⟩ | ⟨-, -, hbuilt⟩⟩ := index_built hr
    · -- a scalar that is indexed with nothing stays as it is
      obtain rfl := List.eq_nil_of_length_eq_zero (hc.length.trans hl.symm)
      exact hs
    · cases hbuilt with
      -- a zero has only zero components
      | zero ha =>
        rw [unaryComponent, component_zero ha] at hs
        rw [component_zero rfl, ← hs]
      | node => exact hnode rfl
  | componentTensor | restricted | grad | referenceGrad | spatialDerivative | averaged
    | labelled => cases hop

end Unary

/-! ## Two operands -/

section Binary

/-- Algebra on constants is its own component. -/
theorem component_literals (op : BinaryOp) {v w : Literal R} (hca : Canonical a)
    (hcb : Canonical b) (ha : a.constant? = some v) (hb : b.constant? = some w)
    (hr : op.apply a b = .ok r) (hconst : r.isConstantValue) (hscalar : r.isScalar)
    (hc : InShape c r.shape) (hx : a.component (c.take a.rank) σ = some x)
    (hy : b.component (c.take b.rank) σ = some y) (hs : op.apply x y = .ok s) :
    r.component c σ = some s := by
  rw [(isScalar_iff.mp hscalar).1] at hc
  obtain rfl := List.eq_nil_of_length_eq_zero hc.length
  rw [eq_of_component_constant? hca ha hx, eq_of_component_constant? hcb hb hy, hr] at hs
  cases hs
  exact component_constant (canonical_binary hca hcb hr) hconst hscalar

/-- A sum that was folded has the components of the sum. -/
theorem component_add (hca : Canonical a) (hcb : Canonical b) (hcx : Canonical x)
    (hr : a.add b = .ok r) (hc : InShape c r.shape)
    (hx : a.component (c.take a.rank) σ = some x)
    (hy : b.component (c.take b.rank) σ = some y) (hs : x.add y = .ok s) :
    r.component c σ = some s := by
  obtain ⟨-, -, hbuilt⟩ := add_built hr
  cases hbuilt with
  -- the other operand stands, and zero plus its component is that component
  | zeroLeft ha =>
    rw [component_zero ha] at hx
    cases hx
    rw [take_rank hc] at hy
    rw [hy, eq_of_zero_add hs]
  | zeroRight _ hb =>
    rw [component_zero hb] at hy
    cases hy
    rw [take_rank hc] at hx
    rw [hx, eq_of_add_zero hcx (component_isScalar hx) hs]
  | literals ha hb =>
    exact component_literals .sum hca hcb (by rw [ha]; rfl) (by rw [hb]; rfl) hr
      (isConstantValue_literal _) (isScalar_iff.mpr (attributes_literal _)) hc hx hy hs
  | node => exact binaryComponent_eq_some.mpr ⟨x, y, hx, hy, hs⟩

/-- A product over a factor that is one: a component of the left factor that is one, too,
gives way to it. -/
theorem component_mul (hca : Canonical a) (hcb : Canonical b) (hcx : Canonical x)
    (hcy : Canonical y) (hr : a.mul b = .ok r) (hc : InShape c r.shape)
    (hx : a.component (c.take a.rank) σ = some x)
    (hy : b.component (c.take b.rank) σ = some y) (hs : x.mul y = .ok s)
    (hone : b.isOne → a.isOne = false → x.isOne → x = b) : r.component c σ = some s := by
  have hsx := component_isScalar hx
  have hsy := component_isScalar hy
  obtain ⟨-, -, hbuilt⟩ := mul_built hr
  cases hbuilt with
  -- the component of a zero operand is zero, and so is the product of the two
  | zero hz =>
    have hz : x = zero [] ∨ y = zero [] := hz.imp (fun ha => ?_) fun hb => ?_
    · rw [component_zero rfl, eq_of_mul_zero hsx hsy hz hs]
    · rw [component_zero ha] at hx
      exact (Option.some.inj hx).symm
    · rw [component_zero hb] at hy
      exact (Option.some.inj hy).symm
  -- a constant one has one component, which is the constant
  | oneLeft _ ha =>
    obtain rfl := eq_of_component_isOne hca ha hx
    rw [take_rank hc] at hy
    rw [hy, eq_of_one_mul hcx hsx hcy hsy ha hs]
  | oneRight _ hna hb =>
    obtain rfl := eq_of_component_isOne hcb hb hy
    rw [take_rank hc] at hx
    rw [hx, eq_of_mul_one hcx hsx hcy hsy hb (hone hb hna) hs]
  | literals ha hb =>
    exact component_literals .product hca hcb (by rw [ha]; rfl) (by rw [hb]; rfl) hr
      (isConstantValue_literal _) (isScalar_iff.mpr (attributes_literal _)) hc hx hy hs
  | node => exact binaryComponent_eq_some.mpr ⟨x, y, hx, hy, hs⟩

/-- The same for quotients. -/
theorem component_div (hca : Canonical a) (hcb : Canonical b) (hcx : Canonical x)
    (hr : a.div b = .ok r) (hc : InShape c r.shape)
    (hx : a.component (c.take a.rank) σ = some x)
    (hy : b.component (c.take b.rank) σ = some y) (hs : x.div y = .ok s) :
    r.component c σ = some s := by
  have hsx := component_isScalar hx
  have hsy := component_isScalar hy
  obtain ⟨-, -, -, hbuilt⟩ := div_built hr
  cases hbuilt with
  | zero ha =>
    rw [component_zero ha] at hx
    cases hx
    rw [component_zero rfl, eq_of_zero_div hsy hs]
  -- a constant one has one component, which is the constant
  | one _ hb =>
    obtain rfl := eq_of_component_isOne hcb hb hy
    rw [take_rank hc] at hx
    rw [hx, eq_of_div_one hcx hsx hsy hb hs]
  | literals ha hb =>
    exact component_literals .division hca hcb (by rw [ha]; rfl) (by rw [hb]; rfl) hr
      (isConstantValue_literal _) (isScalar_iff.mpr (attributes_literal _)) hc hx hy hs
  | node => exact binaryComponent_eq_some.mpr ⟨x, y, hx, hy, hs⟩

/-- The same for powers. -/
theorem component_pow (hca : Canonical a) (hcb : Canonical b)
    (hr : a.pow b = .ok r) (hc : InShape c r.shape)
    (hx : a.component (c.take a.rank) σ = some x)
    (hy : b.component (c.take b.rank) σ = some y) (hs : x.pow y = .ok s) :
    r.component c σ = some s := by
  obtain ⟨-, -, -, hbuilt⟩ := pow_built hr
  cases hbuilt with
  -- an exponent one has one component, which is one
  | one hb =>
    obtain rfl := eq_of_component_isOne hcb hb hy
    rw [take_rank hc] at hx
    rw [hx, eq_of_pow_one hb hs]
  | literals ha hb =>
    exact component_literals .power hca hcb ha hb hr
      (isConstantValue_literal _) (isScalar_iff.mpr (attributes_literal _)) hc hx hy hs
  | node => exact binaryComponent_eq_some.mpr ⟨x, y, hx, hy, hs⟩

/-- **A component of what algebra builds** is what it builds for components of the operands,
but for a product with one. -/
theorem component_apply₂ {op : BinaryOp} (hca : Canonical a) (hcb : Canonical b)
    (hcx : Canonical x) (hcy : Canonical y) (hr : op.apply a b = .ok r) (hc : InShape c r.shape)
    (hx : a.component (c.take a.rank) σ = some x)
    (hy : b.component (c.take b.rank) σ = some y) (hs : op.apply x y = .ok s)
    (hone : op = .product → b.isOne → a.isOne = false → x.isOne → x = b) :
    r.component c σ = some s := by
  cases op with
  | sum => exact component_add hca hcb hcx hr hc hx hy hs
  | product => exact component_mul hca hcb hcx hcy hr hc hx hy hs (hone rfl)
  | division => exact component_div hca hcb hcx hr hc hx hy hs
  | power => exact component_pow hca hcb hr hc hx hy hs

end Binary

end WeakForm.Expr
