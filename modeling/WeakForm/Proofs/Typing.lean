import WeakForm.Proofs.Rewriting

/-!
# Shapes and free indices by rules

Every operator has a rule that says which operands it takes and which shape and free indices
it has over them. The rules give an expression at most one shape and one list of free
indices, and the free indices they give are in ascending order. What a node stores was
computed by its constructor, with unions, removals and look-ups on sorted lists; for every
expression that constructors and rewrites can bring about it is what the rules give.

* `UnaryOp.Rule`, `BinaryOp.Rule`, `Typed` — the rules;
* `Typed.unique`, `Typed.sorted` — they determine shape and free indices, in order;
* `typed_of_canonical` — the attributes of a canonical expression are those of the rules;
* `Obtained` — what constructors and rewrites bring about;
* `obtained_iff_built` — rewrites bring about nothing that constructors alone do not;
* `obtained_consistent` — the invariant of expressions.
-/

namespace WeakForm

/-! ## The rules -/

/-- The free indices with a property, in ascending order. -/
structure FreeIndices.Lists (free : FreeIndices) (P : FreeIndex → Prop) : Prop where
  sorted : free.Sorted
  mem : ∀ x, x ∈ free ↔ P x

theorem FreeIndices.Lists.unique {a b : FreeIndices} {P : FreeIndex → Prop} (ha : a.Lists P)
    (hb : b.Lists P) : a = b :=
  ha.sorted.eq_of_mem_iff hb.sorted fun x => (ha.mem x).trans (hb.mem x).symm

/-- The shape and the free indices of an operator over an operand with a domain, a shape and
free indices. -/
inductive UnaryOp.Rule (domain? : Option Domain) (s : List Nat) (F : FreeIndices) :
    UnaryOp → List Nat → FreeIndices → Prop
  | math {f : MathFunction} (hs : s = []) : Rule domain? s F (.math f) [] F
  | abs : Rule domain? s F .abs s F
  /-- The index that is summed over is free in the operand. -/
  | indexSum {i : IndexId} {G : FreeIndices} (hi : F.has i)
      (hG : G.Lists fun x => x ∈ F ∧ x.id ≠ i) : Rule domain? s F (.indexSum i) s G
  /-- One index per axis: fixed ones on their axes, free ones new and different. -/
  | indexed {is : List Index} {G : FreeIndices} (hl : is.length = s.length)
      (hfixed : ∀ p n, (.fixed p, n) ∈ is.zip s → p < n)
      (hfree : ∀ i, .free i ∈ is → F.has i = false) (hdistinct : Signature.Distinct is)
      (hG : G.Lists fun x => x ∈ F ∨ (.free x.id, x.dim) ∈ is.zip s) :
      Rule domain? s F (.indexed is) [] G
  /-- The axes range over different free indices of the operand. -/
  | componentTensor {ids : List IndexId} {dims : List Nat} {G : FreeIndices} (hs : s = [])
      (hids : ids.Nodup) (hdims : List.Forall₂ (fun i n => ⟨i, n⟩ ∈ F) ids dims)
      (hG : G.Lists fun x => x ∈ F ∧ x.id ∉ ids) : Rule domain? s F (.componentTensor ids) dims G
  | restricted {side : Side} : Rule domain? s F (.restricted side) s F
  | grad {d : Domain} (hd : domain? = some d) : Rule domain? s F .grad (s ++ [d.gdim]) F
  | referenceGrad {d : Domain} (hd : domain? = some d) :
      Rule domain? s F .referenceGrad (s ++ [d.tdim]) F
  /-- Fixed directions lie in the space, free ones are new. -/
  | spatialDerivative {is : List Index} {d : Domain} {G : FreeIndices} (hd : domain? = some d)
      (hfixed : ∀ p, .fixed p ∈ is → p < d.gdim) (hfree : ∀ i, .free i ∈ is → F.has i = false)
      (hG : G.Lists fun x => x ∈ F ∨ (.free x.id ∈ is ∧ x.dim = d.gdim)) :
      Rule domain? s F (.spatialDerivative is) s G
  | averaged {region : Averaging} : Rule domain? s F (.averaged region) s F
  | labelled {number : Nat} : Rule domain? s F (.labelled number) s F

/-- The shape and the free indices of an operator over two operands. -/
inductive BinaryOp.Rule (s : List Nat) (F : FreeIndices) (s' : List Nat) (F' : FreeIndices) :
    BinaryOp → List Nat → FreeIndices → Prop
  | sum (hs : s' = s) (hF : F' = F) : Rule s F s' F' .sum s F
  /-- One factor is a scalar. An index of both ranges over one dimension. -/
  | product {G : FreeIndices} (hs : s = [] ∨ s' = []) (hdims : F.Compatible F')
      (hG : G.Lists fun x => x ∈ F ∨ x ∈ F') : Rule s F s' F' .product (s ++ s') G
  | division {G : FreeIndices} (hs : s' = [])
      (hF : F' = [] ∨ (s = [] ∧ (F = [] ∨ F = F'))) (hG : G.Lists fun x => x ∈ F ∨ x ∈ F') :
      Rule s F s' F' .division s G
  | power (hs : s = []) (hs' : s' = []) (hF : F' = []) : Rule s F s' F' .power [] F

namespace Expr

variable {R : Type}

/-- The shape and the free indices that the rules give an expression. -/
inductive Typed : Expr R → List Nat → FreeIndices → Prop
  | argument {a : Argument} : Typed (argument a) a.element.shape []
  | coefficient {c : Coefficient} : Typed (coefficient c) c.element.shape []
  | geometry {g : Geometry} : Typed (geometry g) g.shape []
  | literal {v : Literal R} : Typed (leaf (.literal v)) [] []
  | zero {s : List Nat} {F : FreeIndices} (hF : F.Sorted) : Typed (leaf (.zero s F)) s F
  | unary {op : UnaryOp} {a : Expr R} {s s' : List Nat} {F G : FreeIndices} (ha : Typed a s F)
      (h : op.Rule a.domain? s F s' G) : Typed (unary op a) s' G
  | binary {op : BinaryOp} {a b : Expr R} {s s' t : List Nat} {F F' G : FreeIndices}
      (ha : Typed a s F) (hb : Typed b s' F') (h : op.Rule s F s' F' t G) :
      Typed (binary op a b) t G
  | listTensor {items : List (Expr R)} {s : List Nat} {F : FreeIndices} (hne : items ≠ [])
      (hi : ∀ item ∈ items, Typed item s F) : Typed (listTensor items) (items.length :: s) F

end Expr

/-! ## What the rules determine -/

section Rules

variable {domain? : Option Domain} {s s' t t' : List Nat} {F F' G G' : FreeIndices}

/-- The rule of an operator gives a sorted list. -/
theorem UnaryOp.Rule.sorted {op : UnaryOp} (h : op.Rule domain? s F t G) (hF : F.Sorted) :
    G.Sorted := by
  cases h with
  | indexSum _ hG => exact hG.sorted
  | indexed _ _ _ _ hG => exact hG.sorted
  | componentTensor _ _ _ hG => exact hG.sorted
  | spatialDerivative _ _ _ hG => exact hG.sorted
  | math | abs | restricted | grad | referenceGrad | averaged | labelled => exact hF

/-- The rule of a binary operator gives a sorted list. -/
theorem BinaryOp.Rule.sorted {op : BinaryOp} (h : op.Rule s F s' F' t G) (hF : F.Sorted) :
    G.Sorted := by
  cases h with
  | product _ _ hG => exact hG.sorted
  | division _ _ hG => exact hG.sorted
  | sum | power => exact hF

/-- In a sorted list, indices have one dimension each. -/
theorem FreeIndices.Sorted.dims_unique {ids : List IndexId} {dims dims' : List Nat} (hF : F.Sorted)
    (h : List.Forall₂ (fun i n => (⟨i, n⟩ : FreeIndex) ∈ F) ids dims)
    (h' : List.Forall₂ (fun i n => (⟨i, n⟩ : FreeIndex) ∈ F) ids dims') : dims = dims' := by
  induction h generalizing dims' with
  | nil =>
    cases h'
    rfl
  | cons hn _ ih =>
    cases h' with
    | cons hn' hrest =>
      -- an identity has one dimension in the list
      have heq := hF.eq_of_id hn hn' rfl
      rw [ih hrest]
      cases heq
      rfl

/-- The rule of an operator gives one shape and one list of free indices. -/
theorem UnaryOp.Rule.unique {op : UnaryOp} (hF : F.Sorted) (h : op.Rule domain? s F t G)
    (h' : op.Rule domain? s F t' G') : t = t' ∧ G = G' := by
  cases h with
  | math | abs | restricted | averaged | labelled =>
    cases h'
    exact ⟨rfl, rfl⟩
  | indexSum _ hG =>
    cases h' with
    | indexSum _ hG' => exact ⟨rfl, hG.unique hG'⟩
  | indexed _ _ _ _ hG =>
    cases h' with
    | indexed _ _ _ _ hG' => exact ⟨rfl, hG.unique hG'⟩
  | componentTensor _ _ hdims hG =>
    cases h' with
    | componentTensor _ _ hdims' hG' => exact ⟨hF.dims_unique hdims hdims', hG.unique hG'⟩
  -- the domain of the operand is one
  | grad hd =>
    cases h' with
    | grad hd' =>
      cases hd.symm.trans hd'
      exact ⟨rfl, rfl⟩
  | referenceGrad hd =>
    cases h' with
    | referenceGrad hd' =>
      cases hd.symm.trans hd'
      exact ⟨rfl, rfl⟩
  | spatialDerivative hd _ _ hG =>
    cases h' with
    | spatialDerivative hd' _ _ hG' =>
      cases hd.symm.trans hd'
      exact ⟨rfl, hG.unique hG'⟩

/-- The rule of a binary operator gives one shape and one list of free indices. -/
theorem BinaryOp.Rule.unique {op : BinaryOp} (h : op.Rule s F s' F' t G)
    (h' : op.Rule s F s' F' t' G') : t = t' ∧ G = G' := by
  cases h with
  | sum | power =>
    cases h'
    exact ⟨rfl, rfl⟩
  | product _ _ hG =>
    cases h' with
    | product _ _ hG' => exact ⟨rfl, hG.unique hG'⟩
  | division _ _ hG =>
    cases h' with
    | division _ _ hG' => exact ⟨rfl, hG.unique hG'⟩

end Rules

namespace Expr

variable {R : Type} {e : Expr R} {s s' : List Nat} {F F' : FreeIndices}

/-- The rules give free indices in ascending order. -/
theorem Typed.sorted (h : Typed e s F) : F.Sorted := by
  induction h with
  | argument | coefficient | geometry | literal => exact FreeIndices.sorted_nil
  | zero hF => exact hF
  | unary _ h ih => exact h.sorted ih
  | binary _ _ h iha _ => exact h.sorted iha
  | @listTensor items s F hne hi ih =>
    obtain ⟨item, hmem⟩ := List.exists_mem_of_ne_nil items hne
    exact ih item hmem

/-- **The rules determine the shape and the free indices.** -/
theorem Typed.unique (h : Typed e s F) (h' : Typed e s' F') : s = s' ∧ F = F' := by
  induction h generalizing s' F' with
  | argument | coefficient | geometry | literal | zero =>
    cases h'
    exact ⟨rfl, rfl⟩
  | unary ha h ih =>
    cases h' with
    | unary ha' h' =>
      -- the operand has one shape and one list of indices
      obtain ⟨rfl, rfl⟩ := ih ha'
      exact h.unique ha.sorted h'
  | binary ha hb h iha ihb =>
    cases h' with
    | binary ha' hb' h' =>
      obtain ⟨rfl, rfl⟩ := iha ha'
      obtain ⟨rfl, rfl⟩ := ihb hb'
      exact h.unique h'
  | @listTensor items s F hne hi ih =>
    cases h' with
    | listTensor _ hi' =>
      -- a list has at least one item, which gives the attributes of the whole
      obtain ⟨item, hmem⟩ := List.exists_mem_of_ne_nil items hne
      obtain ⟨rfl, rfl⟩ := ih item hmem (hi' item hmem)
      exact ⟨rfl, rfl⟩

/-! ## The attributes of canonical expressions -/

variable [Scalar R] {a b : Expr R}

/-- The indices of a tensor have the dimensions that were looked up. -/
theorem forall₂_dims {ids : List IndexId} (hF : F.Sorted) (hids : ∀ i ∈ ids, F.has i) :
    List.Forall₂ (fun i n => (⟨i, n⟩ : FreeIndex) ∈ F) ids
      (ids.map fun i => (F.dim? i).getD 0) := by
  rw [List.forall₂_iff_zip]
  refine ⟨by rw [List.length_map], fun {i n} hmem => ?_⟩
  exact hF.mem_of_zip hids hmem

/-- A node that its constructor returns obeys the rule of its operator. -/
theorem rule_unary {op : UnaryOp} (ha : a.free.Sorted) (h : op.apply a = .ok (unary op a)) :
    op.Rule a.domain? a.shape a.free (unary op a).shape (unary op a).free := by
  have hsorted : (unary op a).free.Sorted := sorted_unary ha h
  have hfree : ∀ x, x ∈ (unary op a).free ↔ _ := fun x => mem_free_unary (x := x) h
  -- what the operator adds to the axes and to the indices
  have hshape : (unary op a).shape = op.shape a.signature := shape_unary op a
  cases op with
  | math f =>
    obtain ⟨hs, -⟩ := math_built h
    rw [hshape, free_unary]
    exact .math hs
  | abs =>
    rw [hshape, free_unary]
    exact .abs
  | indexSum i =>
    obtain ⟨hi, -⟩ := sumOver_built h
    rw [hshape]
    refine .indexSum hi ⟨hsorted, fun x => (hfree x).trans ?_⟩
    simp [UnaryOp.bound, UnaryOp.introduced]
  | indexed is =>
    -- each axis gets an index, which is not free in the operand
    obtain ⟨hl, hok⟩ := index_ok h
    rw [hshape]
    refine .indexed hl hok.bounded hok.fresh hok.distinct ⟨hsorted, fun x => (hfree x).trans ?_⟩
    simp [UnaryOp.bound, UnaryOp.introduced, Signature.mem_indexedFree, shape]
  | componentTensor ids =>
    -- the axes are those of the bound indices
    obtain ⟨-, hs, hax, -⟩ := tensor_node h
    obtain ⟨hnodup, hids⟩ := tensorAxes_nodup hax
    rw [hshape]
    refine .componentTensor hs hnodup (forall₂_dims ha hids)
      ⟨hsorted, fun x => (hfree x).trans ?_⟩
    simp [UnaryOp.bound, UnaryOp.introduced]
  | restricted side =>
    rw [hshape, free_unary]
    exact .restricted
  | grad =>
    -- a gradient has the axis of its domain
    obtain ⟨d, hd⟩ := Option.isSome_iff_exists.mp (gradient_built h).1
    rw [hshape, free_unary, UnaryOp.shape, signature_gdim hd]
    exact .grad hd
  | referenceGrad =>
    obtain ⟨d, hd⟩ := Option.isSome_iff_exists.mp (referenceGradient_built h).1
    have htdim : a.signature.tdim = d.tdim := by
      have hd : a.signature.domain? = some d := hd
      rw [Signature.tdim, hd]
      rfl
    rw [hshape, free_unary, UnaryOp.shape, htdim]
    exact .referenceGrad hd
  | spatialDerivative is =>
    -- free directions become free indices
    obtain ⟨-, d, hd, hdir, -⟩ := derivative_node h
    rw [hshape]
    refine .spatialDerivative hd (checkDirections_fixed hdir) (checkDirections_ok hdir)
      ⟨hsorted, fun x => (hfree x).trans ?_⟩
    simp [UnaryOp.bound, UnaryOp.introduced, Signature.mem_directionFree, signature_gdim hd]
  | averaged region =>
    rw [hshape, free_unary]
    exact .averaged
  | labelled number =>
    rw [hshape, free_unary]
    exact .labelled

/-- The attributes of a binary operator follow its rule. -/
theorem rule_binary {op : BinaryOp} (ha : a.free.Sorted) (hb : b.free.Sorted)
    (h : op.apply a b = .ok (binary op a b)) :
    op.Rule a.shape a.free b.shape b.free (binary op a b).shape (binary op a b).free := by
  have hlists : (binary op a b).free.Lists fun x => x ∈ a.free ∨ x ∈ b.free :=
    ⟨sorted_binary ha hb h, fun x => mem_free_binary ha hb h⟩
  have hshape : (binary op a b).shape = op.shape a.signature b.signature := shape_binary op a b
  cases op with
  | sum =>
    obtain ⟨hs, hF, -⟩ := add_built h
    rw [hshape, free_binary]
    exact .sum hs.symm hF.symm
  | product =>
    obtain ⟨hs, hconf, -⟩ := mul_built h
    -- one of the shapes is empty, so the other one is both in a row
    have happend : (binary .product a b).shape = a.shape ++ b.shape := by
      rw [hshape, product_shape]
      rcases hs with hs | hs
      · simp [hs]
      · by_cases hsa : a.shape = [] <;> simp [hs, hsa]
    rw [happend]
    exact .product hs (FreeIndices.compatible_of_conflict? ha hb hconf) hlists
  | division =>
    obtain ⟨hs, -, hF, -⟩ := div_built h
    rw [hshape]
    exact .division hs hF hlists
  | power =>
    obtain ⟨hs, hs', hF, -⟩ := pow_built h
    rw [hshape, free_binary]
    exact .power hs hs' hF

/-- **The attributes of a canonical expression are those of the rules.** -/
theorem typed_of_canonical (h : Canonical e) : Typed e e.shape e.free := by
  induction h with
  | @leaf t ht =>
    rw [shape_leaf, free_leaf]
    cases t with
    | argument a => exact .argument
    -- the attributes of a terminal are its own
    | coefficient c => exact .coefficient
    | geometry g => exact .geometry
    | literal v => exact .literal
    | zero shape free => exact .zero ht
  | unary hca h iha => exact .unary iha (rule_unary hca.sorted h)
  | binary hca hcb h iha ihb => exact .binary iha ihb (rule_binary hca.sorted hcb.sorted h)
  | @listTensor items hci h ih =>
    obtain ⟨first, rest, rfl, hrest, -⟩ := stack_built h
    obtain ⟨hs, hF⟩ := attributes_stack h
    rw [hs, hF]
    refine .listTensor (List.cons_ne_nil _ _) fun item hmem => ?_
    -- all items have the attributes of the first
    have heq := attributes_item h hmem
    have hfirst := ih item hmem
    rw [heq.2] at hF
    rw [heq.1] at hs
    rwa [(List.cons.inj hs).2, hF] at hfirst

/-! ## What constructors and rewrites bring about -/

/-- An expression that a finite sequence of successful constructors and rewrites returns. -/
inductive Obtained [DecidableEq R] : Expr R → Prop
  | argument (a : Argument) : Obtained (argument a)
  | coefficient (c : Coefficient) : Obtained (coefficient c)
  | geometry (g : Geometry) : Obtained (geometry g)
  | literal (v : Literal R) : Obtained (literal v)
  | zero (shape : List Nat) : Obtained (zero shape)
  | zeroOver {shape : List Nat} {free : FreeIndices} {r : Expr R}
      (h : zeroOver shape free = .ok r) : Obtained r
  | unary {op : UnaryOp} {a r : Expr R} (ha : Obtained a) (h : op.apply a = .ok r) : Obtained r
  /-- A tensor over given indices, which its constructor finds to be free. -/
  | tensor {is : List Index} {a r : Expr R} (ha : Obtained a) (h : a.tensor is = .ok r) : Obtained r
  | binary {op : BinaryOp} {a b r : Expr R} (ha : Obtained a) (hb : Obtained b)
      (h : op.apply a b = .ok r) : Obtained r
  | stack {items : List (Expr R)} {r : Expr R} (hi : ∀ item ∈ items, Obtained item)
      (h : stack items = .ok r) : Obtained r
  | operand {e a : Expr R} (he : Obtained e) (ha : a ∈ e.operands) : Obtained a
  | rebuild {e r : Expr R} {operands : List (Expr R)} (he : Obtained e)
      (ho : ∀ a ∈ operands, Obtained a) (h : e.rebuild operands = .ok r) : Obtained r
  | substitute {σ : Renaming} {e r : Expr R} (he : Obtained e) (h : e.substitute σ = .ok r) :
      Obtained r
  /-- A replacement of nodes, by a table or by any other function. -/
  | replace {f : Expr R → Option (Expr R)} {e r : Expr R}
      (hf : ∀ s s', f s = some s' → Obtained s') (he : Obtained e)
      (h : replaceNodes f e = .ok r) : Obtained r
  | normalize {e r : Expr R} (he : Obtained e) (h : normalize e = .ok r) : Obtained r
  | resolve {e r : Expr R} (he : Obtained e) (h : resolveItems e = .ok r) : Obtained r

section Obtained

variable [DecidableEq R] {r : Expr R}

omit [DecidableEq R] in
/-- A closed class has the component tensors of its expressions. -/
theorem Closed.tensor {Q : Expr R → Prop} {is : List Index} (hQ : Closed Q) (ha : Q a)
    (h : a.tensor is = .ok r) : Q r := by
  obtain ⟨-, ⟨-, rfl⟩ | ⟨-, ids, hax, -⟩⟩ := tensor_built h
  · exact ha
  · rw [tensorAxes_ok hax] at h
    have h : UnaryOp.apply (.componentTensor ids) a = .ok r := h
    exact hQ.unary ha h

omit [DecidableEq R] in
/-- A closed class has what is rebuilt from its expressions. -/
theorem Closed.rebuild {Q : Expr R → Prop} {operands : List (Expr R)} (hQ : Closed Q) (he : Q e)
    (ho : ∀ a ∈ operands, Q a) (h : e.rebuild operands = .ok r) : Q r := by
  unfold Expr.rebuild at h
  split at h
  · cases h
    exact he
  · exact hQ.unary (ho _ List.mem_cons_self) h
  · exact hQ.binary (ho _ List.mem_cons_self)
      (ho _ (List.mem_cons_of_mem _ List.mem_cons_self)) h
  · exact hQ.stack ho h
  · cases h
  · cases h
  · cases h

/-- A closed property of all terminals holds of all that constructors and rewrites bring about. -/
theorem Closed.obtained {Q : Expr R → Prop} (hQ : Closed Q)
    (hleaf : ∀ t, CanonicalTerminal t → Q (leaf t)) (he : Obtained e) : Q e := by
  -- a literal that is zero is built as zero
  have hliteral : ∀ v, Q (Expr.literal v) := by
    intro v
    unfold Expr.literal
    split
    · exact hleaf _ FreeIndices.sorted_nil
    · next hv => exact hleaf _ (by simpa [CanonicalTerminal] using hv)
  -- Every way to obtain an expression is one of the operations `Q` is closed under.
  induction he with
  | argument a => exact hleaf _ trivial
  | coefficient c => exact hleaf _ trivial
  | geometry g => exact hleaf _ trivial
  | literal v => exact hliteral v
  | zero shape => exact hleaf _ FreeIndices.sorted_nil
  | zeroOver h => exact hQ.zero h
  | unary _ h ih => exact hQ.unary ih h
  | tensor _ h ih => exact hQ.tensor ih h
  | binary _ _ h iha ihb => exact hQ.binary iha ihb h
  | stack _ h ih => exact hQ.stack ih h
  | operand _ ha ih => exact hQ.operand ih ha
  | rebuild _ _ h ihe iho => exact hQ.rebuild ihe iho h
  | substitute _ h ih => exact hQ.substitute ih h
  | replace _ _ h ihf ihe =>
    rw [replaceNodes_eq_replace] at h
    exact hQ.replace ihf ihe h
  | normalize _ h ih => exact hQ.normalize (hliteral _) ih h
  | resolve _ h ih =>
    rw [resolveItems_eq_resolve] at h
    exact hQ.resolve ih h

theorem obtained_canonical (h : Obtained e) : Canonical e :=
  canonical_closed.obtained (fun _ ht => .leaf ht) h

omit [DecidableEq R] in
/-- A canonical expression is built from its terminals, node by node. -/
theorem Canonical.built (h : Canonical e) : Built e := by
  induction h with
  | @leaf t ht =>
    cases t with
    | argument a => exact .argument a
    | coefficient c => exact .coefficient c
    | geometry g => exact .geometry g
    | literal v =>
      -- A canonical leaf holds no zero literal, which `Expr.literal` would turn into a zero.
      have hv : Expr.literal v = Expr.leaf (.literal v) := by
        have hz : v.isZero = false := ht
        rw [Expr.literal, if_neg (by rw [hz]; decide)]
      rw [← hv]
      exact .literal v
    | zero shape free => exact .zeroOver (if_pos ht)
  | unary _ h ih => exact .unary ih h
  | binary _ _ h iha ihb => exact .binary iha ihb h
  | listTensor _ h ih => exact .stack ih h

/-- What is built is obtained. -/
theorem Built.obtained (h : Built e) : Obtained e := by
  induction h with
  | argument a => exact .argument a
  | coefficient c => exact .coefficient c
  | geometry g => exact .geometry g
  | literal v => exact .literal v
  | zero shape => exact .zero shape
  | zeroOver h => exact .zeroOver h
  | unary _ h ih => exact .unary ih h
  | binary _ _ h iha ihb => exact .binary iha ihb h
  | stack _ h ih => exact .stack ih h

/-- **Rewrites bring about nothing that constructors alone do not.** -/
theorem obtained_iff_built : Obtained e ↔ Built e :=
  ⟨fun h => (obtained_canonical h).built, Built.obtained⟩

end Obtained

/-! ## The invariant of expressions -/

omit [Scalar R] in
/-- An expression and the nodes it is made of. -/
inductive Subexpression (a : Expr R) : Expr R → Prop
  | refl : Subexpression a a
  | operand {b e : Expr R} (hb : b ∈ e.operands) (h : Subexpression a b) : Subexpression a e

/-- A closed class has the parts of its expressions. -/
theorem Closed.subexpression {Q : Expr R → Prop} (hQ : Closed Q) (he : Q e)
    (h : Subexpression a e) : Q a := by
  induction h with
  | refl => exact he
  | operand hb _ ih => exact ih (hQ.operand he hb)

/-- What every pass relies on at a node. -/
structure Consistent (e : Expr R) : Prop where
  /-- Free indices are strictly ascending. -/
  sorted : e.free.Sorted
  /-- The shape and the free indices stored with the node are the ones that the rules give. -/
  attributes : ∀ s F, Typed e s F ↔ s = e.shape ∧ F = e.free
  /-- Fixed indices lie on their axes. -/
  positions : ∀ is a, e = unary (.indexed is) a →
    is.length = a.rank ∧ ∀ p n, (.fixed p, n) ∈ is.zip a.shape → p < n
  /-- Fixed directions lie in the space. -/
  directions : ∀ is a, e = unary (.spatialDerivative is) a →
    ∃ d, a.domain? = some d ∧ ∀ p, .fixed p ∈ is → p < d.gdim
  /-- An index that is summed over is free in the operand. -/
  summed : ∀ i a, e = unary (.indexSum i) a → a.free.has i
  /-- The indices of a tensor are free in the operand, and different. -/
  ranged : ∀ ids a, e = unary (.componentTensor ids) a → ids.Nodup ∧ ∀ i ∈ ids, a.free.has i
  /-- A literal is not zero. -/
  literal : ∀ v, e = leaf (.literal v) → v.isZero = false
  /-- The node is built again over its operands as it is. -/
  rebuilt : e.rebuild e.operands = .ok e

/-- A canonical node has what the rule of its operator asks for. -/
theorem Canonical.consistent (h : Canonical e) : Consistent e where
  sorted := h.sorted
  attributes s F := by
    constructor
    -- typing is unique, and a canonical expression has its own attributes
    · intro htyped
      exact htyped.unique (typed_of_canonical h)
    · rintro ⟨rfl, rfl⟩
      exact typed_of_canonical h
  positions := by
    -- an indexing has an entry for each axis
    rintro is a rfl
    cases h with
    | unary _ happly =>
      obtain ⟨hl, hok⟩ := index_ok happly
      exact ⟨hl, hok.bounded⟩
  directions := by
    -- directions lie in the space of the domain
    rintro is a rfl
    cases h with
    | unary _ happly =>
      obtain ⟨-, d, hd, hdir, -⟩ := derivative_node happly
      exact ⟨d, hd, checkDirections_fixed hdir⟩
  summed := by
    rintro i a rfl
    cases h with
    | unary _ happly => exact (sumOver_built happly).1
  ranged := by
    -- the bound indices are distinct and free in the operand
    rintro ids a rfl
    cases h with
    | unary _ happly =>
      obtain ⟨-, -, hax, -⟩ := tensor_node happly
      exact tensorAxes_nodup hax
  literal := by
    rintro v rfl
    cases h with
    | leaf ht => exact ht
  rebuilt := by
    cases h with
    | leaf => rfl
    | unary _ happly => exact happly
    | binary _ _ happly => exact happly
    | listTensor _ happly => exact happly

/-- **Expressions keep their invariant**: whatever constructors and rewrites bring about is
consistent at each of its nodes. -/
theorem obtained_consistent [DecidableEq R] (he : Obtained e) (ha : Subexpression a e) :
    Consistent a :=
  (canonical_closed.subexpression (obtained_canonical he) ha).consistent

/-- A component of a vector inside the normal form of a contraction. -/
theorem obtained_consistent_entry :
    normalize (Contraction.integrand 3) = .ok (Contraction.contraction 3) ∧
      Subexpression (Contraction.entry 1 2) (Contraction.contraction 3) ∧
      Consistent (Contraction.entry 1 2) := by
  have hbuilt : Built (Contraction.integrand 3) := Contraction.built_integrand (by cbv)
  have hnormal : normalize (Contraction.integrand 3) = .ok (Contraction.contraction 3) :=
    Contraction.normalize_integrand (by with_unfolding_all rfl) (by cbv) (by cbv)
  -- the sum, its product, and the second factor
  have hpart : Subexpression (Contraction.entry 1 2) (Contraction.contraction 3) :=
    .operand List.mem_cons_self (.operand (List.mem_cons_of_mem _ List.mem_cons_self) .refl)
  exact ⟨hnormal, hpart, obtained_consistent (.normalize hbuilt.obtained hnormal) hpart⟩

end Expr

end WeakForm
