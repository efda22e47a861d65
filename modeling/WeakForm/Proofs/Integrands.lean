import WeakForm.Proofs.Meaning

/-!
# Integrands

An integrand applies algebra, functions, indexing, sums and tensors to modifier chains:
gradients, restrictions and averages stand over terminals only. The constructors stay
inside this grammar, whichever way they fold.

The value of an integrand depends on the positions of its free indices and on no others.
What binds an index gives it a position, and only then does the index leave the list of
free indices.

* `Integrand` — the grammar;
* `integrand_unary`, `integrand_binary`, `integrand_stack` — it is closed under construction;
* `value_congr` — the value depends on free indices only.
-/

namespace WeakForm

namespace Expr

variable {R : Type}

/-- Chains under operators that compute with values. -/
inductive Integrand : Expr R → Prop
  | chain {e : Expr R} (h : e.isModifiedTerminal) : Integrand e
  | unary {op : UnaryOp} {a : Expr R} (hop : op.Computes)
      (ha : Integrand a) : Integrand (unary op a)
  | binary {op : BinaryOp} {a b : Expr R} (ha : Integrand a) (hb : Integrand b) :
      Integrand (binary op a b)
  | listTensor {items : List (Expr R)} (hi : ∀ item ∈ items, Integrand item) :
      Integrand (listTensor items)

/-! ## The grammar is closed under construction -/

section Closed

variable [Scalar R] {a b r : Expr R}

omit [Scalar R] in
theorem integrand_leaf (t : Terminal R) : Integrand (leaf t) :=
  .chain rfl

/-- A modifier keeps a terminal a modified terminal. -/
theorem chain_unary {op : UnaryOp} (hop : op.isModifier) (ha : a.isModifiedTerminal)
    (h : op.apply a = .ok r) : r.isModifiedTerminal := by
  rcases unary_outcome h with rfl | hc | rfl
  · exact ha
  · obtain ⟨t, rfl⟩ := leaf_of_isConstantValue hc
    rfl
  · rw [isModifiedTerminal, hop, ha, Bool.and_self]

/-- Computing operators keep integrands. -/
theorem integrand_unary {op : UnaryOp} (hop : op.Computes)
    (ha : Integrand a) (h : op.apply a = .ok r) : Integrand r := by
  rcases unary_outcome h with rfl | hc | rfl
  · exact ha
  · obtain ⟨t, rfl⟩ := leaf_of_isConstantValue hc
    exact integrand_leaf t
  · exact .unary hop ha

/-- Binary operators keep integrands. -/
theorem integrand_binary {op : BinaryOp} (ha : Integrand a) (hb : Integrand b)
    (h : op.apply a b = .ok r) : Integrand r := by
  rcases binary_outcome h with rfl | rfl | hc | rfl
  · exact ha
  · exact hb
  · obtain ⟨t, rfl⟩ := leaf_of_isConstantValue hc
    exact integrand_leaf t
  · exact .binary ha hb

/-- Stacking integrands gives an integrand. -/
theorem integrand_stack {items : List (Expr R)} (hi : ∀ item ∈ items, Integrand item)
    (h : stack items = .ok r) : Integrand r := by
  obtain ⟨first, rest, rfl, -, hr⟩ := stack_built h
  cases hr with
  | zero => exact integrand_leaf _
  | node => exact .listTensor hi

omit [Scalar R] in
/-- The operand of a modifier other than indexing is a chain. -/
theorem Integrand.operand {op : UnaryOp} (h : Integrand (Expr.unary op a)) :
    Integrand a ∧ (op.Computes ∨ (op.isModifier ∧ a.isModifiedTerminal)) := by
  cases h with
  | chain h =>
    rw [isModifiedTerminal, Bool.and_eq_true] at h
    exact ⟨.chain h.2, .inr h⟩
  | unary hop ha => exact ⟨ha, .inl hop⟩

omit [Scalar R] in
/-- The operands of an integrand are integrands. -/
theorem Integrand.operands {op : BinaryOp} (h : Integrand (Expr.binary op a b)) :
    Integrand a ∧ Integrand b := by
  cases h with
  | chain h => cases h
  | binary ha hb => exact ⟨ha, hb⟩

omit [Scalar R] in
/-- The items of an integrand are integrands. -/
theorem Integrand.items {items : List (Expr R)} (h : Integrand (Expr.listTensor items)) :
    ∀ item ∈ items, Integrand item := by
  cases h with
  | chain h => cases h
  | listTensor hi => exact hi

end Closed

/-! ## Locality -/

section Locality

variable {A : Type} [Scalar R] [CommRing A] {M : Model R A} {leaves : Expr R → A} {a b e : Expr R}
  {σ τ : Env} {c : List Nat}

/-- Positions that agree on an expression's free indices. -/
def AgreeOn (e : Expr R) (σ τ : Env) : Prop :=
  ∀ i, e.free.has i → σ i = τ i

/-- Inside an operator, what it binds has the same position on both sides. -/
theorem AgreeOn.bind {op : UnaryOp} {r : Expr R} (happly : op.apply a = .ok r)
    (h : AgreeOn r σ τ) {positions : List Nat} (hl : positions.length = op.bound.length) :
    AgreeOn a (σ.bind op.bound positions) (τ.bind op.bound positions) := by
  intro i hi
  by_cases hb : i ∈ op.bound
  · exact Env.bind_of_mem hl hb
  · rw [Env.bind_of_not_mem hb, Env.bind_of_not_mem hb]
    exact h i (has_of_operand happly hi hb)

/-- An operator that binds nothing passes its free indices on. -/
theorem AgreeOn.operand {op : UnaryOp} {r : Expr R} (happly : op.apply a = .ok r)
    (h : AgreeOn r σ τ) (hb : op.bound = []) : AgreeOn a σ τ := by
  intro i hi
  refine h i (has_of_operand happly hi ?_)
  rw [hb]
  exact List.not_mem_nil

/-- Environments that agree on the free indices agree on those of the operands. -/
theorem AgreeOn.operands {op : BinaryOp} {r : Expr R} (ha : a.free.Sorted) (hb : b.free.Sorted)
    (happly : op.apply a b = .ok r) (h : AgreeOn r σ τ) : AgreeOn a σ τ ∧ AgreeOn b σ τ := by
  constructor
  · exact fun i hi => h i (has_of_left ha hb happly hi)
  · exact fun i hi => h i (has_of_right ha hb happly hi)

/-- **The value of an integrand depends on the positions of its free indices only.** -/
theorem value_congr (hcan : Canonical e) (hint : Integrand e) (h : AgreeOn e σ τ)
    (hc : c.length = e.rank) :
    e.value (M.withLeaves leaves) c σ = e.value (M.withLeaves leaves) c τ := by
  induction hcan generalizing c σ τ with
  -- no leaf reads the environment
  | @leaf t _ => cases t <;> rfl
  | @unary op a hca happly ih =>
    obtain ⟨hia, hmod⟩ := hint.operand
    rcases hmod with hop | ⟨hop, hm⟩
    -- an operator means the same for operands with the same values
    · rw [value_node hop, value_node hop]
      refine meaning_congr hop happly hc (fun _ _ => rfl) ?_ fun c' positions hc' hl => ?_
      · refine List.map_congr_left fun j hj => ?_
        cases j with
        | fixed p => rfl
        | free i => exact h i (has_of_entry happly hj)
      · exact ih hia (h.bind happly hl) hc'
    · -- a chain is the chain of its positions
      have hm : (unary op a).isModifiedTerminal := by
        rw [isModifiedTerminal, hop, hm, Bool.and_self]
      have hfix : (unary op a).mapIndices σ.fix = (unary op a).mapIndices τ.fix :=
        mapIndices_congr (.unary hca happly) hm (fun i hi => congrArg Index.fixed (h i hi))
          fun _ => rfl
      have hσ : ∀ j, σ.resolve (σ.fix j) = σ.resolve j := fun _ => rfl
      have hτ : ∀ j, σ.resolve (τ.fix j) = τ.resolve j := fun _ => rfl
      rw [← value_mapIndices hm hσ, ← value_mapIndices hm hτ, hfix]
  | @binary op a b hca hcb happly iha ihb =>
    obtain ⟨hia, hib⟩ := hint.operands
    obtain ⟨ha, hb⟩ := h.operands hca.sorted hcb.sorted happly
    rw [value_node₂, value_node₂]
    exact meaning_congr₂ happly hc (fun _ => iha hia ha) fun _ => ihb hib hb
  | @listTensor items hci happly ih =>
    cases c with
    -- an empty component selects no item
    | nil => rfl
    | cons k c =>
      rw [value_listTensor, value_listTensor]
      cases hk : items[k]? with
      | none => rfl
      | some item =>
        have hmem := List.mem_of_getElem? hk
        obtain ⟨hshape, hfree⟩ := attributes_item happly hmem
        have hagree : AgreeOn item σ τ := fun i hi => h i (by rwa [hfree])
        have hrank : c.length = item.rank := by
          rw [rank, hshape] at hc
          exact Nat.succ.inj hc
        exact ih item hmem (hint.items item hmem) hagree hrank

end Locality

end Expr

end WeakForm
