import WeakForm.Proofs.Differential
import WeakForm.Proofs.Meaning
import WeakForm.Proofs.PassRuns

/-!
# The items that are selected

Every indexing of a list tensor at a fixed position is the item there, indexed by the
rest. A polynomial integrand in which all such items are selected has the shape, the free
indices and the values it had: its nodes are built again over operands that have those of
the operands before, and what is built has the value of its node.

* `attributes_selected`, `value_selected` — what the item that is selected has;
* `Resolves` — an integrand in the place of another;
* `Resolves.unary`, `Resolves.binary`, `Resolves.stack` — a node over resolved operands;
* `Resolves.item` — an indexed list tensor and the item selected;
* `resolve_resolves` — the whole;
* `rank_resolve` — any expression keeps the number of its axes.
-/

namespace WeakForm.Expr

variable {R A : Type} [Scalar R] [CommRing A]

/-! ## Selected items -/

section Selected

variable {M : Model R A} {items : List (Expr R)} {is : List Index} {r : Expr R}

omit [CommRing A] in
/-- A selected item has the free indices of the indexing: the position of the leading axis
is none of them. -/
theorem attributes_selected (hstack : stack items = .ok (listTensor items))
    (h : selectItem? items is = some (.ok r)) :
    r.HasAttributes []
      ((listTensor items).free.union (Signature.indexedFree is (listTensor items).shape)) := by
  obtain ⟨p, rest, item, rfl, hitem, happly⟩ := selectItem_built h
  obtain ⟨hshape, hfree⟩ := attributes_item hstack (List.mem_of_getElem? hitem)
  rw [hshape, hfree]
  exact attributes_index happly

/-- A selected item has the value of the list at the positions of the indices. -/
theorem value_selected (hM : M.Exact) (h : selectItem? items is = some (.ok r)) (σ : Env) :
    r.value M [] σ = (listTensor items).value M (is.map σ.resolve) σ := by
  obtain ⟨p, rest, item, rfl, hitem, happly⟩ := selectItem_built h
  have hnil : ([] : List Nat).length = r.rank := by rw [rank, (attributes_index happly).1]
  rw [value_index hM happly hnil, List.map_cons, Env.resolve_fixed, value_listTensor, hitem]
  rfl

end Selected

/-! ## Integrands in the place of others -/

/-- A polynomial integrand with the shape, the free indices and the values of another one. -/
structure Resolves (M : Model R A) (gdim : Nat) (e r : Expr R) : Prop where
  canonical : Canonical r
  polynomial : Polynomial r
  inSpace : InSpace gdim r
  shape : r.shape = e.shape
  free : r.free = e.free
  value : ∀ c σ, c.length = e.rank → r.value M c σ = e.value M c σ

variable {M : Model R A} {gdim : Nat} {a a' b b' e r : Expr R}

namespace Resolves

theorem refl (hcan : Canonical e) (hpoly : Polynomial e) (hspace : InSpace gdim e) :
    Resolves M gdim e e :=
  ⟨hcan, hpoly, hspace, rfl, rfl, fun _ _ _ => rfl⟩

theorem rank (h : Resolves M gdim e r) : r.rank = e.rank :=
  congrArg List.length h.shape

/-- Resolving twice in a row resolves. -/
theorem trans (h : Resolves M gdim a b) (h' : Resolves M gdim b r) : Resolves M gdim a r where
  canonical := h'.canonical
  polynomial := h'.polynomial
  inSpace := h'.inSpace
  shape := h'.shape.trans h.shape
  free := h'.free.trans h.free
  value c σ hc := by
    rw [h'.value c σ (by rw [hc, h.rank]), h.value c σ hc]

/-! ## Nodes -/

/-- A node over a resolved operand has the attributes it had. The free indices of a derivative
are those of the space, which both operands live in. -/
theorem attributes {op : UnaryOp} (hop : op.isPolynomial) (hspace : InSpace gdim a)
    (ha : Resolves M gdim a a') (h : op.apply a = .ok e) (hr : op.apply a' = .ok r) :
    r.shape = e.shape ∧ r.free = e.free := by
  have hshape : a'.signature.shape = a.signature.shape := ha.shape
  have hfree : a'.signature.free = a.signature.free := ha.free
  obtain ⟨hs, hf⟩ := attributes_unary h
  obtain ⟨hs', hf'⟩ := attributes_unary hr
  rw [hs, hf, hs', hf']
  -- the rule of the operator sees the shape, the free indices and the dimension of the space
  cases op with
  | indexSum | indexed | componentTensor | restricted | labelled =>
    simp only [UnaryOp.shape, UnaryOp.free, hshape, hfree, and_self]
  | spatialDerivative is =>
    have hdirections : Signature.directionFree is a'.signature.gdim =
        Signature.directionFree is a.signature.gdim := by
      rcases derivative_built h with ⟨rfl, -⟩ | ⟨-, d, hd, -⟩
      · rfl
      · rcases derivative_built hr with ⟨rfl, -⟩ | ⟨-, d', hd', -⟩
        · rfl
        · rw [signature_gdim hd, signature_gdim hd', hspace.gdim_eq hd, ha.inSpace.gdim_eq hd']
    simp only [UnaryOp.shape, UnaryOp.free, hshape, hfree, hdirections, and_self]
  | math | abs | grad | referenceGrad | averaged => cases hop

/-- An operator on a resolved operand resolves the operator on the operand. -/
theorem unary {op : UnaryOp} (hM : M.Exact) (Δ : M.Differential) (hop : op.isPolynomial)
    (hspace : InSpace gdim a) (happly : op.apply a = .ok (unary op a))
    (ha : Resolves M gdim a a') (hr : op.apply a' = .ok r) :
    Resolves M gdim (.unary op a) r := by
  obtain ⟨hshape, hfree⟩ := ha.attributes hop hspace happly hr
  refine ⟨canonical_unary ha.canonical hr, polynomial_unary hop ha.polynomial hr,
    inSpace_unary ha.inSpace hr, hshape, hfree, fun c σ hc => ?_⟩
  -- the components given suit the rebuilt expression as well
  have hcr : c.length = r.rank := by
    rw [hc, Expr.rank, Expr.rank, hshape]
  rw [value_unary_polynomial hM Δ hop ha.polynomial hr hcr]
  by_cases hmod : op.Computes
  · -- the meaning of the operator depends on the values of its operand only
    rw [value_node hmod, value_node hmod]
    refine meaning_congr hmod happly hc (fun i _ => congrArg (·.dim? i) ha.free) rfl
      fun c' positions hc' _ => ?_
    exact ha.value c' _ hc'
  · -- a modifier keeps the components
    cases op with
    | spatialDerivative is =>
      have hca : c.length = a.rank := by
        rw [hc, Expr.rank, (attributes_unary happly).1]
        rfl
      rw [value_unary_derivative Δ, value_unary_derivative Δ, ha.value c σ hca]
    | restricted s =>
      have hca : c.length = a.rank := by
        rw [hc, Expr.rank, (attributes_unary happly).1]
        rfl
      rw [value_unary_restricted Δ, value_unary_restricted Δ, ha.value c σ hca]
    | indexed is => exact absurd (fun _ => ⟨is, rfl⟩) hmod
    | indexSum | componentTensor | labelled =>
      refine absurd (fun h => ?_) hmod
      cases h
    | math | abs | grad | referenceGrad | averaged => cases hop

/-- A binary operator on resolved operands resolves the one on the operands. -/
theorem binary {op : BinaryOp} (hM : M.Exact) (hpow : M.ExactPowers) (hop : op.isPolynomial)
    (happly : op.apply a b = .ok (binary op a b)) (ha : Resolves M gdim a a')
    (hb : Resolves M gdim b b') (hr : op.apply a' b' = .ok r) :
    Resolves M gdim (.binary op a b) r := by
  have hshapea : a'.signature.shape = a.signature.shape := ha.shape
  have hshapeb : b'.signature.shape = b.signature.shape := hb.shape
  have hfreea : a'.signature.free = a.signature.free := ha.free
  have hfreeb : b'.signature.free = b.signature.free := hb.free
  obtain ⟨hs, hf⟩ := attributes_binary happly
  obtain ⟨hs', hf'⟩ := attributes_binary hr
  -- the rank is that of the operands, which keep theirs
  have hattributes : r.shape = (Expr.binary op a b).shape ∧ r.free = (Expr.binary op a b).free := by
    rw [hs, hf, hs', hf']
    cases op <;> simp only [BinaryOp.shape, BinaryOp.free, hshapea, hshapeb, hfreea, hfreeb,
      and_self]
  refine ⟨canonical_binary ha.canonical hb.canonical hr,
    polynomial_binary hop ha.polynomial hb.polynomial hr, inSpace_binary ha.inSpace hb.inSpace hr,
    hattributes.1, hattributes.2, fun c σ hc => ?_⟩
  -- the components given suit the rebuilt expression as well
  have hcr : c.length = r.rank := by
    rw [hc, Expr.rank, Expr.rank, hattributes.1]
  rw [value_binary_polynomial hM hpow hop hr hcr, value_node₂, value_node₂, ha.rank, hb.rank]
  exact meaning_congr₂ happly hc (fun c' hc' => ha.value c' σ hc') fun c' hc' =>
    hb.value c' σ hc'

/-- A stack of resolved items resolves the list. -/
theorem stack {items items' : List (Expr R)} (hM : M.Exact)
    (happly : Expr.stack items = .ok (listTensor items))
    (hi : List.Forall₂ (Resolves M gdim) items items') (hr : Expr.stack items' = .ok r) :
    Resolves M gdim (listTensor items) r := by
  -- an item of the rebuilt list resolves one of the old list
  have hmem : ∀ item' ∈ items', ∃ item, Resolves M gdim item item' := fun item' hm => by
    obtain ⟨item, -, h⟩ := exists_left_of_mem hi hm
    exact ⟨item, h⟩
  have hcan : ∀ item' ∈ items', Canonical item' := fun item' hm => (hmem item' hm).elim
    fun _ h => h.canonical
  have hpoly : ∀ item' ∈ items', Polynomial item' := fun item' hm => (hmem item' hm).elim
    fun _ h => h.polynomial
  have hspace : ∀ item' ∈ items', InSpace gdim item' := fun item' hm => (hmem item' hm).elim
    fun _ h => h.inSpace
  -- the attributes of a stack are those of its first item, with one more axis
  have hattributes : r.shape = (listTensor items).shape ∧ r.free = (listTensor items).free := by
    obtain ⟨first, rest, rfl, -, -⟩ := stack_built happly
    obtain ⟨first', rest', hfirst, -, rfl⟩ := List.forall₂_cons_left_iff.mp hi
    obtain ⟨hs, hf⟩ := attributes_stack happly
    obtain ⟨hs', hf'⟩ := attributes_stack hr
    rw [hs, hf, hs', hf', hi.length_eq, hfirst.shape, hfirst.free]
    exact ⟨rfl, rfl⟩
  refine ⟨canonical_stack hcan hr, polynomial_stack hpoly hr, inSpace_stack hspace hr,
    hattributes.1, hattributes.2, fun c σ hc => value_stack_congr hM happly hr ?_ hc⟩
  exact hi.imp fun item item' hitem c' hc' => hitem.value c' σ hc'

/-- **An indexed list tensor is the item that its leading index selects.** -/
theorem item {items : List (Expr R)} {is : List Index} (hM : M.Exact)
    (hcan : ∀ item ∈ items, Canonical item) (hpoly : ∀ item ∈ items, Polynomial item)
    (hspace : ∀ item ∈ items, InSpace gdim item)
    (hstack : Expr.stack items = .ok (listTensor items))
    (h : (listTensor items).index is = .ok (.unary (.indexed is) (listTensor items)))
    (hr : selectItem? items is = some (.ok r)) :
    Resolves M gdim (.unary (.indexed is) (listTensor items)) r := by
  obtain ⟨p, rest, item, -, hitem, happly⟩ := selectItem_built hr
  have hmem := List.mem_of_getElem? hitem
  obtain ⟨hshape, hfree⟩ := attributes_index h
  obtain ⟨hshape', hfree'⟩ := attributes_selected hstack hr
  refine ⟨canonical_unary (hcan item hmem) happly, polynomial_unary rfl (hpoly item hmem) happly,
    inSpace_unary (hspace item hmem) happly, hshape'.trans hshape.symm, hfree'.trans hfree.symm,
    fun c σ hc => ?_⟩
  -- what is selected is a scalar
  have hnil : c = [] := by
    rw [Expr.rank, hshape] at hc
    exact List.eq_nil_of_length_eq_zero hc
  rw [hnil, value_selected hM hr, value_unary_indexed]

/-- Selecting an item resolves the indexing. -/
theorem of_item? (hM : M.Exact) (hcan : Canonical e) (hpoly : Polynomial e)
    (hspace : InSpace gdim e) (h : item? e = some (.ok r)) : Resolves M gdim e r := by
  unfold item? at h
  split at h
  · next is items =>
    -- only a component of a list is selected
    cases hcan with
    | unary hca happly =>
    cases hca with
    | listTensor hci hstack =>
    cases hpoly with
    | unary _ hpa =>
    cases hpa with
    | listTensor hpi =>
    cases hspace with
    | unary hsa =>
    cases hsa with
    | listTensor hsi => exact .item hM hci hpi hsi hstack happly h
  · cases h

end Resolves

/-! ## The whole -/

section Resolve

variable [DecidableEq R]

/-- A canonical node is built again as it is, over operands that stay the same. -/
theorem apply_of_reapply {op : UnaryOp} (happly : op.apply a = .ok (unary op a))
    (h : reapply op a a' = .ok r) : op.apply a' = .ok r := by
  unfold reapply at h
  split at h
  · next heq => rw [heq, happly, h]
  · exact h

/-- A binary operator that is kept or rebuilt is applied to the new operands. -/
theorem apply_of_reapply₂ {op : BinaryOp} (happly : op.apply a b = .ok (binary op a b))
    (h : reapply₂ op a b a' b' = .ok r) : op.apply a' b' = .ok r := by
  unfold reapply₂ at h
  split at h
  · next heq => rw [heq.1, heq.2, happly, h]
  · exact h

/-- A list that is kept or rebuilt is the stack of the new items. -/
theorem stack_of_restack {items items' : List (Expr R)}
    (happly : stack items = .ok (listTensor items)) (h : restack items items' = .ok r) :
    stack items' = .ok r := by
  unfold restack at h
  split at h
  · next heq => rw [heq, happly, h]
  · exact h

/-- **An integrand with all list items selected has the values it had.** -/
theorem resolve_resolves (hM : M.Exact) (hpow : M.ExactPowers) (Δ : M.Differential)
    (hcan : Canonical e) (hpoly : Polynomial e) (hspace : InSpace gdim e)
    (h : resolve e = .ok r) : Resolves M gdim e r := by
  rw [← selectionRun_iff] at h
  induction h with
  | item hitem _ ih =>
    have hselected := Resolves.of_item? hM hcan hpoly hspace hitem
    -- the pass goes on with the item
    exact hselected.trans (ih hselected.canonical hselected.polynomial hselected.inSpace)
  | leaf => exact .refl hcan hpoly hspace
  | unary _ _ hr ih =>
    cases hcan with
    | unary hca happly =>
    cases hpoly with
    | unary hop hpa =>
    cases hspace with
    | unary hsa =>
    -- the operator is applied to the resolved operand
    exact (ih hca hpa hsa).unary hM Δ hop hsa happly (apply_of_reapply happly hr)
  | binary _ _ hr iha ihb =>
    cases hcan with
    | binary hca hcb happly =>
    cases hpoly with
    | binary hop hpa hpb =>
    cases hspace with
    | binary hsa hsb =>
    -- both operands are resolved before the operator is applied
    have ha := iha hca hpa hsa
    exact ha.binary hM hpow hop happly (ihb hcb hpb hsb) (apply_of_reapply₂ happly hr)
  | @stack items items' _ hl _ hr ih =>
    cases hcan with
    | listTensor hci happly =>
    cases hpoly with
    | listTensor hpi =>
    cases hspace with
    | listTensor hsi =>
    -- the items are resolved one by one
    have hall : List.Forall₂ (Resolves M gdim) items items' :=
      List.forall₂_iff_zip.mpr ⟨hl, fun {item item'} hzip => by
        have hmem := (List.of_mem_zip hzip).1
        exact ih item item' hzip (hci item hmem) (hpi item hmem) (hsi item hmem)⟩
    exact .stack hM happly hall (stack_of_restack happly hr)

/-! ## The number of axes -/

omit [CommRing A] [DecidableEq R] in
/-- What an operator builds has as many axes over one operand as over another with as many. -/
theorem rank_unary {op : UnaryOp} (h : op.apply a = .ok e) (hr : op.apply a' = .ok r)
    (ha : a'.rank = a.rank) : r.rank = e.rank := by
  have hl : a'.signature.shape.length = a.signature.shape.length := ha
  rw [rank, rank, (attributes_unary h).1, (attributes_unary hr).1]
  cases op with
  | math | indexed => rfl
  | componentTensor ids => simp only [UnaryOp.shape, List.length_map]
  | grad | referenceGrad => simp only [UnaryOp.shape, List.length_append, List.length_singleton, hl]
  | abs | indexSum | restricted | spatialDerivative | averaged | labelled => exact hl

omit [CommRing A] [DecidableEq R] in
/-- The rank of a binary operator depends only on the ranks of its operands. -/
theorem rank_binary {op : BinaryOp} (h : op.apply a b = .ok e) (hr : op.apply a' b' = .ok r)
    (ha : a'.rank = a.rank) (hb : b'.rank = b.rank) : r.rank = e.rank := by
  -- the rule for products asks only which operand is scalar
  have hempty : a'.shape = [] ↔ a.shape = [] := by
    rw [← List.length_eq_zero_iff, ← List.length_eq_zero_iff]
    exact iff_of_eq (congrArg (· = 0) ha)
  rw [rank, rank, (attributes_binary h).1, (attributes_binary hr).1]
  cases op with
  | sum | division => exact ha
  | product =>
    rw [product_shape, product_shape]
    by_cases hs : a.shape = []
    · rw [if_pos hs, if_pos (hempty.mpr hs)]
      exact hb
    · rw [if_neg hs, if_neg fun hs' => hs (hempty.mp hs')]
      exact ha
  | power => rfl

omit [CommRing A] [DecidableEq R] in
/-- A selected item has no axes, and neither has the indexing that it is selected by. -/
theorem rank_item? (hcan : Canonical e) (h : item? e = some (.ok r)) :
    Canonical r ∧ r.rank = e.rank := by
  unfold item? at h
  split at h
  · next is items =>
    cases hcan with
    | unary hca happly =>
    cases hca with
    | listTensor hci hstack =>
    -- the item is indexed by what is left of the indices
    obtain ⟨p, rest, item, -, hitem, hr⟩ := selectItem_built h
    refine ⟨canonical_unary (hci item (List.mem_of_getElem? hitem)) hr, ?_⟩
    rw [rank, rank, (attributes_index hr).1, (attributes_index happly).1]
  · cases h

omit [CommRing A] in
/-- The selection of list items keeps the number of axes. -/
theorem rank_resolve (hcan : Canonical e) (h : resolve e = .ok r) : r.rank = e.rank := by
  rw [← selectionRun_iff] at h
  induction h with
  | item hitem _ ih =>
    obtain ⟨hcanitem, hrank⟩ := rank_item? hcan hitem
    exact (ih hcanitem).trans hrank
  | leaf => rfl
  | unary _ _ hr ih =>
    cases hcan with
    | unary hca happly => exact rank_unary happly (apply_of_reapply happly hr) (ih hca)
  | binary _ _ hr iha ihb =>
    cases hcan with
    | binary hca hcb happly =>
      exact rank_binary happly (apply_of_reapply₂ happly hr) (iha hca) (ihb hcb)
  | @stack items items' _ hl _ hr ih =>
    cases hcan with
    | listTensor hci happly =>
    have hstack := stack_of_restack happly hr
    -- the first item has as many axes as before, and a stack has one more
    obtain ⟨first, rest, rfl, -, -⟩ := stack_built happly
    obtain ⟨first', rest', rfl, -, -⟩ := stack_built hstack
    have hrank := ih first first' List.mem_cons_self (hci first List.mem_cons_self)
    rw [rank, rank, (attributes_stack happly).1, (attributes_stack hstack).1]
    exact congrArg Nat.succ hrank

end Resolve

/-! ## Where nothing is selected -/

omit [Scalar R] in
/-- No subexpression is a list tensor. -/
def isListFree : Expr R → Bool
  | leaf _ => true
  | unary _ a => a.isListFree
  | binary _ a b => a.isListFree && b.isListFree
  | listTensor _ => false

omit [CommRing A] in
/-- The pass leaves an expression without list tensors as it is. -/
theorem resolve_of_isListFree [DecidableEq R] {e : Expr R} (h : e.isListFree) :
    resolve e = .ok e := by
  rw [← selectionRun_iff]
  induction e with
  | leaf t => exact .leaf t
  | unary op a ih =>
    -- no item can be selected
    have hitem : item? (unary op a) = none := by
      unfold item?
      split
      · next heq =>
        -- a list tensor below the indexing
        cases heq
        cases h
      · rfl
    exact .unary hitem (ih h) (if_pos rfl)
  | binary op a b iha ihb =>
    obtain ⟨ha, hb⟩ := Bool.and_eq_true_iff.mp h
    exact .binary (iha ha) (ihb hb) (if_pos ⟨rfl, rfl⟩)
  | listTensor items => cases h

end WeakForm.Expr
