import WeakForm.Proofs.ComponentRenaming
import WeakForm.Proofs.Scalarization

/-!
# The names of summation indices

The index of a sum has a name, and fresh names come from a counter: an expression that is
built once more gets other ones. The order of names is that of the free indices in every
layout, so other names permute the components of every operand of a sum. The components of
the whole expression do not change, and neither does the graph that they are inserted in.

* `Rebound` — an expression whose sums run over indices of other names;
* `rebind`, `rebound_rebind` — new names that do not occur in an expression;
* `Rebound.follows` — its components are those of the expression;
* `scalarize_rebound` — it is scalarized to the same list;
* `ofTargets_rebound` — it has the same graph.
-/

namespace WeakForm

/-- Every index is replaced by a free one. -/
def Renaming.Names (ρ : Renaming) : Prop :=
  ∀ i, ∃ k, ρ.onIndex (.free i) = .free k

namespace Renaming

variable {ρ : Renaming} {i i' k : IndexId}

theorem names_nil : Names [] :=
  fun i => ⟨i, rfl⟩

theorem fits_nil (free : FreeIndices) : Fits [] free where
  bounded _ _ _ h := by cases h
  apart _ _ _ _ _ hx hy := Index.free.inj (hx.trans hy.symm)

theorem onIndex_cons_self : onIndex ((i, .free i') :: ρ) (.free i) = .free i' := by
  simp [onIndex, find?]

theorem onIndex_cons_of_ne (h : k ≠ i) :
    onIndex ((i, .free i') :: ρ) (.free k) = ρ.onIndex (.free k) := by
  rw [onIndex, onIndex, find?, find?, List.lookup_cons, beq_eq_false_iff_ne.mpr h]

/-- One new name more. -/
theorem Names.cons (h : ρ.Names) : Names ((i, .free i') :: ρ) := by
  intro k
  by_cases hk : k = i
  · exact ⟨i', by rw [hk, onIndex_cons_self]⟩
  · rw [onIndex_cons_of_ne hk]
    exact h k

end Renaming

namespace Expr

variable {R : Type}

/-- `e'` is `e` with other names of the indices that its sums run over, where `ρ` gives the new
names of the indices that sums around it run over. A new name is that of no other index which
is free under the sum. -/
inductive Rebound : Renaming → Expr R → Expr R → Prop
  | terminal {ρ : Renaming} {t : Terminal R} (h : t.free = []) : Rebound ρ (leaf t) (leaf t)
  | zero {ρ : Renaming} {shape : List Nat} {free : FreeIndices} :
      Rebound ρ (leaf (.zero shape free)) (leaf (.zero shape (ρ.onFree free)))
  | indexSum {ρ : Renaming} {i i' : IndexId} {a a' : Expr R}
      (hnew : ∀ k, a.free.has k → k ≠ i → ρ.onIndex (.free k) ≠ .free i')
      (ha : Rebound ((i, .free i') :: ρ) a a') :
      Rebound ρ (unary (.indexSum i) a) (unary (.indexSum i') a')
  | unary {ρ : Renaming} {op : UnaryOp} {a a' : Expr R} (hop : ∀ i, op ≠ .indexSum i)
      (hav : ρ.Avoids a.free op.bound) (ha : Rebound (ρ.without op.bound) a a') :
      Rebound ρ (unary op a) (unary (ρ.onOp op) a')
  | binary {ρ : Renaming} {op : BinaryOp} {a a' b b' : Expr R} (ha : Rebound ρ a a')
      (hb : Rebound ρ b b') : Rebound ρ (binary op a b) (binary op a' b')
  | listTensor {ρ : Renaming} {items items' : List (Expr R)}
      (hl : items'.length = items.length)
      (hi : ∀ p ∈ items.zip items', Rebound ρ p.1 p.2) :
      Rebound ρ (listTensor items) (listTensor items')

/-! ## New names -/

/-- An index is written somewhere in an expression. -/
inductive Occurs (i : IndexId) : Expr R → Prop
  | leaf {t : Terminal R} (h : t.free.has i) : Occurs i (leaf t)
  | bound {op : UnaryOp} {a : Expr R} (h : i ∈ op.bound) : Occurs i (unary op a)
  | entry {op : UnaryOp} {a : Expr R} (h : .free i ∈ op.entries) : Occurs i (unary op a)
  | operand {op : UnaryOp} {a : Expr R} (h : Occurs i a) : Occurs i (unary op a)
  | left {op : BinaryOp} {a b : Expr R} (h : Occurs i a) : Occurs i (binary op a b)
  | right {op : BinaryOp} {a b : Expr R} (h : Occurs i b) : Occurs i (binary op a b)
  | item {items : List (Expr R)} {item : Expr R} (hm : item ∈ items) (h : Occurs i item) :
      Occurs i (listTensor items)

mutual

/-- The expression whose sums run over the images of their indices. -/
def rebind (f : IndexId → IndexId) (ρ : Renaming) : Expr R → Expr R
  | leaf (.zero shape free) => leaf (.zero shape (ρ.onFree free))
  | leaf t => leaf t
  | unary (.indexSum i) a => unary (.indexSum (f i)) (rebind f ((i, .free (f i)) :: ρ) a)
  | unary op a => unary (ρ.onOp op) (rebind f (ρ.without op.bound) a)
  | binary op a b => binary op (rebind f ρ a) (rebind f ρ b)
  | listTensor items => listTensor (rebindAll f ρ items)

/-- Every expression of a list with the images of the indices of its sums. -/
def rebindAll (f : IndexId → IndexId) (ρ : Renaming) : List (Expr R) → List (Expr R)
  | [] => []
  | e :: es => rebind f ρ e :: rebindAll f ρ es

end

/-- The items are renamed one by one. -/
theorem rebindAll_eq (f : IndexId → IndexId) (ρ : Renaming) (es : List (Expr R)) :
    rebindAll f ρ es = es.map (rebind f ρ) := by
  induction es with
  | nil => rfl
  | cons e es ih => rw [rebindAll, ih, List.map_cons]

/-- Only sums bind a new name; the other operators have their entries renamed. -/
theorem rebind_unary {f : IndexId → IndexId} {ρ : Renaming} {op : UnaryOp} {a : Expr R}
    (hop : ∀ i, op ≠ .indexSum i) :
    rebind f ρ (unary op a) = unary (ρ.onOp op) (rebind f (ρ.without op.bound) a) := by
  cases op with
  | indexSum i => exact absurd rfl (hop i)
  | math | abs | indexed | componentTensor | restricted | grad | referenceGrad
    | spatialDerivative | averaged | labelled => rfl

variable [Scalar R] {ρ : Renaming} {a a' b b' e e' r : Expr R}

/-- A free index occurs in the expression. -/
theorem Canonical.occurs (hc : Canonical e) {i : IndexId} (hi : e.free.has i) : Occurs i e := by
  induction hc with
  | leaf => exact .leaf (free_leaf (R := R) _ ▸ hi)
  | @unary op a hca happly ih =>
    obtain ⟨d, hd⟩ := FreeIndices.has_iff.mp hi
    -- it is free in the operand, or one of the operator's entries
    rcases (mem_free_unary happly).mp hd with ⟨ha, -⟩ | hd
    · exact .operand (ih (FreeIndices.has_of_mem ha))
    · exact .entry (UnaryOp.mem_entries_of_introduced hd)
  | binary hca hcb happly iha ihb =>
    obtain ⟨d, hd⟩ := FreeIndices.has_iff.mp hi
    rcases (mem_free_binary hca.sorted hcb.sorted happly).mp hd with ha | hb
    · exact .left (iha (FreeIndices.has_of_mem ha))
    · exact .right (ihb (FreeIndices.has_of_mem hb))
  | listTensor hci happly ih =>
    obtain ⟨first, rest, rfl, -, -⟩ := stack_built happly
    rw [(attributes_stack happly).2] at hi
    exact .item List.mem_cons_self (ih first List.mem_cons_self hi)

section NewNames

variable {f : IndexId → IndexId}

/-- Under a sum, an index has its own name or the new one. -/
theorem new_cons (hρ : ∀ k, ρ.onIndex (.free k) = .free k ∨ ρ.onIndex (.free k) = .free (f k))
    (i k : IndexId) : Renaming.onIndex ((i, .free (f i)) :: ρ) (.free k) = .free k ∨
      Renaming.onIndex ((i, .free (f i)) :: ρ) (.free k) = .free (f k) := by
  by_cases hk : k = i
  · rw [hk, Renaming.onIndex_cons_self]
    exact .inr rfl
  · rw [Renaming.onIndex_cons_of_ne hk]
    exact hρ k

/-- So it has where fewer are renamed. -/
theorem new_without (hρ : ∀ k, ρ.onIndex (.free k) = .free k ∨ ρ.onIndex (.free k) = .free (f k))
    (ids : List IndexId) (k : IndexId) : (ρ.without ids).onIndex (.free k) = .free k ∨
      (ρ.without ids).onIndex (.free k) = .free (f k) := by
  by_cases hk : k ∈ ids
  · exact .inl (Renaming.onIndex_without_of_mem hk)
  · rw [Renaming.onIndex_without_of_not_mem hk]
    exact hρ k

/-- New names are not captured by indices that have none of them. -/
theorem avoids_new (hρ : ∀ k, ρ.onIndex (.free k) = .free k ∨ ρ.onIndex (.free k) = .free (f k))
    {free : FreeIndices} {bound : List IndexId} (hf : ∀ i, f i ∉ bound) :
    ρ.Avoids free bound := by
  intro i _ hi j hj hfind
  -- a name is the index's own or a new one, and neither is bound here
  have hon : ρ.onIndex (.free i) = .free j := by rw [Renaming.onIndex, hfind]; rfl
  rcases hρ i with h | h
  · rw [h] at hon
    cases hon
    exact hi hj
  · rw [h] at hon
    cases hon
    exact hf i hj

/-- **New names that do not occur are names as a sum may have them.** -/
theorem rebound_rebind (hc : Canonical e) (hinj : f.Injective) (hf : ∀ i, ¬Occurs (f i) e)
    (hρ : ∀ k, ρ.onIndex (.free k) = .free k ∨ ρ.onIndex (.free k) = .free (f k)) :
    Rebound ρ e (rebind f ρ e) := by
  induction hc generalizing ρ with
  | @leaf t ht =>
    cases t with
    | zero => exact .zero
    | argument | coefficient | geometry | literal => exact .terminal rfl
  | @unary op a hca happly ih =>
    -- what does not occur in an expression does not occur in its operands
    have hfa : ∀ i, ¬Occurs (f i) a := fun i h => hf i (.operand h)
    by_cases hsum : ∃ i, op = .indexSum i
    · obtain ⟨i, rfl⟩ := hsum
      refine .indexSum (fun k hk hne heq => ?_) (ih hfa (new_cons hρ i))
      -- a free index has its own name, which occurs, or a new one, which is that of no other
      rcases hρ k with hon | hon
      · obtain rfl : k = f i := Index.free.inj (hon.symm.trans heq)
        exact hfa i (hca.occurs hk)
      · exact hne (hinj (Index.free.inj (hon.symm.trans heq)))
    · have hsum : ∀ i, op ≠ .indexSum i := fun i h => hsum ⟨i, h⟩
      rw [rebind_unary hsum]
      exact .unary hsum (avoids_new hρ fun i hb => hf i (.bound hb)) (ih hfa (new_without hρ _))
  | binary hca hcb happly iha ihb =>
    exact .binary (iha (fun i h => hf i (.left h)) hρ) (ihb (fun i h => hf i (.right h)) hρ)
  | @listTensor items hci happly ih =>
    rw [rebind, rebindAll_eq]
    refine .listTensor (List.length_map _) fun p hp => ?_
    have hzip : items.zip (items.map (rebind f ρ)) =
        items.map fun item => (item, rebind f ρ item) := by
      simpa using List.zip_map' (f := id) (g := rebind f ρ) (l := items)
    rw [hzip] at hp
    obtain ⟨item, hm, rfl⟩ := List.mem_map.mp hp
    exact ih item hm (fun i h => hf i (.item hm h)) hρ

end NewNames

/-! ## No fold more, and none less -/

/-- Expressions that the constructors treat alike. -/
structure Alike (a a' : Expr R) : Prop where
  isZero : a'.isZero = a.isZero
  isOne : a'.isOne = a.isOne
  literal : a'.literal? = a.literal?
  constant : a.constant? = none → a'.constant? = none

/-- Renamed expressions are zero, one or constant together. -/
theorem Rebound.alike (h : Rebound ρ e e') (hn : ρ.Names) : Alike e e' := by
  cases h with
  | terminal => exact ⟨rfl, rfl, rfl, id⟩
  | @zero _ shape free =>
    refine ⟨rfl, rfl, rfl, fun hnone => ?_⟩
    cases free with
    | nil => cases shape <;> first | rfl | cases hnone
    | cons f free =>
      -- a zero with free indices keeps some, so it is no constant under other names, either
      obtain ⟨k, hk⟩ := hn f.id
      have hmem : ⟨k, f.dim⟩ ∈ ρ.onFree (f :: free) :=
        mem_onFree.mpr ⟨f, List.mem_cons_self, hk, rfl⟩
      cases hfree : ρ.onFree (f :: free) with
      | nil =>
        rw [hfree] at hmem
        cases hmem
      | cons g rest => cases shape <;> rfl
  | indexSum | unary | binary | listTensor => exact ⟨rfl, rfl, rfl, id⟩

omit [Scalar R] in
/-- No expression is its own operand. -/
theorem ne_left (op : BinaryOp) (a b : Expr R) : binary op a b ≠ a := by
  intro h
  have := congrArg size h
  rw [size_binary] at this
  omega

omit [Scalar R] in
theorem ne_right (op : BinaryOp) (a b : Expr R) : binary op a b ≠ b := by
  intro h
  have := congrArg size h
  rw [size_binary] at this
  omega

/-- A literal is no node. -/
theorem literal_ne_unary (v : Literal R) (op : UnaryOp) (a : Expr R) :
    literal v ≠ unary op a := by
  unfold literal
  split <;> exact nofun

theorem literal_ne_binary (v : Literal R) (op : BinaryOp) (a b : Expr R) :
    literal v ≠ binary op a b := by
  unfold literal
  split <;> exact nofun

/-- A function is put on top of what it would be put on top of under other names. -/
theorem Alike.math {f : MathFunction} (h : Alike a a')
    (happly : a.math f = .ok (unary (.math f) a)) (hr : a'.math f = .ok r) :
    r = unary (.math f) a' := by
  generalize hnode : unary (.math f) a = e at happly
  -- a constant operand would have been folded before, too
  cases (math_built happly).2 with
  | literal => exact absurd hnode.symm (literal_ne_unary _ _ _)
  | node hconst =>
    cases (math_built hr).2 with
    | literal ha' =>
      rw [h.constant hconst] at ha'
      cases ha'
    | node => rfl

/-- An absolute value is a node over what is neither zero nor a literal. -/
theorem abs_node (h : a.abs = .ok (unary .abs a)) : a.isZero = false ∧ a.literal? = none := by
  generalize hnode : unary .abs a = e at h
  cases abs_built h with
  | zero => exact absurd hnode (ne_operand _ _)
  | literal => exact absurd hnode.symm (literal_ne_unary _ _ _)
  | node hz hl => exact ⟨hz, hl⟩

/-- As for functions. -/
theorem Alike.abs (h : Alike a a') (happly : a.abs = .ok (unary .abs a)) :
    a'.abs = .ok (unary .abs a') := by
  obtain ⟨hz, hl⟩ := abs_node happly
  unfold Expr.abs
  rw [h.isZero, hz, if_neg Bool.false_ne_true, h.literal, hl]

/-- Literals are operands of a node if they were so before. -/
theorem Alike.not_literals (ha : Alike a a') (hb : Alike b b')
    (hl : a.literal? = none ∨ b.literal? = none) {x y : Literal R}
    (ha' : a' = leaf (.literal x)) (hb' : b' = leaf (.literal y)) : False := by
  rw [← ha.literal, ← hb.literal, ha', hb'] at hl
  rcases hl with hl | hl
  · cases hl
  · cases hl

/-- As for functions, for both operands. -/
theorem Alike.add (ha : Alike a a') (hb : Alike b b')
    (happly : a.add b = .ok (binary .sum a b)) (hr : a'.add b' = .ok r) :
    r = binary .sum a' b' := by
  generalize hnode : binary .sum a b = e at happly
  -- where the first sum has not been folded, the second is not folded either
  cases (add_built happly).2.2 with
  | zeroLeft => exact absurd hnode (ne_right _ _ _)
  | zeroRight => exact absurd hnode (ne_left _ _ _)
  | literals => exact absurd hnode.symm (literal_ne_binary _ _ _ _)
  | node hza hzb hl =>
    cases (add_built hr).2.2 with
    | zeroLeft hz => simp [ha.isZero, hza] at hz
    | zeroRight _ hz => simp [hb.isZero, hzb] at hz
    | literals hva hvb => exact (ha.not_literals hb hl hva hvb).elim
    | node => rfl

/-- As for sums. -/
theorem Alike.mul (ha : Alike a a') (hb : Alike b b')
    (happly : a.mul b = .ok (binary .product a b)) (hr : a'.mul b' = .ok r) :
    r = binary .product a' b' := by
  generalize hnode : binary .product a b = e at happly
  -- as for sums
  cases (mul_built happly).2.2 with
  | zero => cases hnode
  | oneLeft => exact absurd hnode (ne_right _ _ _)
  | oneRight => exact absurd hnode (ne_left _ _ _)
  | literals => exact absurd hnode.symm (literal_ne_binary _ _ _ _)
  | node hz hone hl =>
    cases (mul_built hr).2.2 with
    | zero hz' => simp [ha.isZero, hb.isZero, hz] at hz'
    | oneLeft _ hone' => simp [ha.isOne, hone] at hone'
    | oneRight _ _ hone' => simp [hb.isOne, hone] at hone'
    | literals hva hvb => exact (ha.not_literals hb hl hva hvb).elim
    | node => rfl

/-- As for products. -/
theorem Alike.div (ha : Alike a a') (hb : Alike b b')
    (happly : a.div b = .ok (binary .division a b)) (hr : a'.div b' = .ok r) :
    r = binary .division a' b' := by
  generalize hnode : binary .division a b = e at happly
  -- as for sums
  cases (div_built happly).2.2.2 with
  | zero => cases hnode
  | one => exact absurd hnode (ne_left _ _ _)
  | literals => exact absurd hnode.symm (literal_ne_binary _ _ _ _)
  | node hz hone hl =>
    cases (div_built hr).2.2.2 with
    | zero hz' => simp [ha.isZero, hz] at hz'
    | one _ hone' => simp [hb.isOne, hone] at hone'
    | literals hva hvb => exact (ha.not_literals hb hl hva hvb).elim
    | node => rfl

/-- As for quotients. -/
theorem Alike.pow (ha : Alike a a') (hb : Alike b b')
    (happly : a.pow b = .ok (binary .power a b)) (hr : a'.pow b' = .ok r) :
    r = binary .power a' b' := by
  generalize hnode : binary .power a b = e at happly
  -- as for sums, but a constant base or exponent is enough to tell
  cases (pow_built happly).2.2.2 with
  | one => exact absurd hnode (ne_left _ _ _)
  | literals => exact absurd hnode.symm (literal_ne_binary _ _ _ _)
  | node hone hl =>
    cases (pow_built hr).2.2.2 with
    | one hone' => simp [hb.isOne, hone] at hone'
    | literals hva hvb =>
      rcases hl with hl | hl
      · rw [ha.constant hl] at hva
        cases hva
      · rw [hb.constant hl] at hvb
        cases hvb
    | node => rfl

/-- **Algebra over operands that are alike makes a node if it did so before.** -/
theorem Alike.apply₂ {op : BinaryOp} (ha : Alike a a') (hb : Alike b b')
    (happly : op.apply a b = .ok (binary op a b)) (hr : op.apply a' b' = .ok r) :
    r = binary op a' b' := by
  cases op with
  | sum => exact ha.add hb happly hr
  | product => exact ha.mul hb happly hr
  | division => exact ha.div hb happly hr
  | power => exact ha.pow hb happly hr

/-- An operator that binds nothing is put on top of what it was put on top of under other
names. -/
theorem Alike.apply {op : UnaryOp} (h : Alike a a') (hop : op.ByComponents)
    (hbound : op.bound = []) (happly : op.apply a = .ok (unary op a))
    (hr : (ρ.onOp op).apply a' = .ok r) : r = unary (ρ.onOp op) a' := by
  cases op with
  | math f => exact h.math happly hr
  | abs => exact Except.ok.inj (hr.symm.trans (h.abs happly))
  | indexed is =>
    obtain ⟨hne, -, -, hz⟩ := indexed_node happly
    -- an indexing keeps its entries, and its operand is zero if it was
    obtain ⟨-, ⟨hnil, -⟩ | ⟨-, -, hbuilt⟩⟩ := index_built hr
    · exact absurd (List.map_eq_nil_iff.mp hnil) hne
    · cases hz with
      | node hza =>
        cases hbuilt with
        | zero hz' => simp [h.isZero, hza] at hz'
        | node => rfl
  | indexSum => cases hbound
  | componentTensor | restricted | grad | referenceGrad | spatialDerivative | averaged
    | labelled => cases hop

/-! ## Under a sum -/

section Sums

variable {i i' : IndexId} {c : List Nat} {σ τ : Env}

/-- The index of a sum gets a name that no other index has. -/
theorem fits_under (happly : UnaryOp.apply (.indexSum i) a = .ok (unary (.indexSum i) a))
    (hfit : ρ.Fits (unary (.indexSum i) a).free)
    (hnew : ∀ k, a.free.has k → k ≠ i → ρ.onIndex (.free k) ≠ .free i') :
    Renaming.Fits ((i, .free i') :: ρ) a.free := by
  have hmem : ∀ y ∈ a.free, y.id ≠ i → y ∈ (unary (.indexSum i) a).free := fun y hy hne =>
    (mem_free_unary happly).mpr (.inl ⟨hy, fun hb => hne (List.mem_singleton.mp hb)⟩)
  -- an index is that of the sum, or one of the sum's that does not get the new name
  refine ⟨fun y hy p hp => ?_, fun x hx y hy k hxk hyk => ?_⟩
  · by_cases hyi : y.id = i
    · rw [hyi, Renaming.onIndex_cons_self] at hp
      cases hp
    · rw [Renaming.onIndex_cons_of_ne hyi] at hp
      exact hfit.bounded y (hmem y hy hyi) p hp
  · by_cases hxi : x.id = i
    all_goals by_cases hyi : y.id = i
    · rw [hxi, hyi]
    · rw [hxi, Renaming.onIndex_cons_self] at hxk
      rw [Renaming.onIndex_cons_of_ne hyi, ← hxk] at hyk
      exact absurd hyk (hnew _ (FreeIndices.has_of_mem hy) hyi)
    · rw [hyi, Renaming.onIndex_cons_self] at hyk
      rw [Renaming.onIndex_cons_of_ne hxi, ← hyk] at hxk
      exact absurd hxk (hnew _ (FreeIndices.has_of_mem hx) hxi)
    · rw [Renaming.onIndex_cons_of_ne hxi] at hxk
      rw [Renaming.onIndex_cons_of_ne hyi] at hyk
      exact hfit.apart x (hmem x hx hxi) y (hmem y hy hyi) k hxk hyk

omit [Scalar R] in
/-- The new name of a sum's index is that of no index left free. -/
theorem ne_of_image (hnew : ∀ k, a.free.has k → k ≠ i → ρ.onIndex (.free k) ≠ .free i')
    {x : FreeIndex} (h : ρ.Image (a.free.erase i) x) : x.id ≠ i' := by
  obtain ⟨y, hy, hyx, -⟩ := h
  obtain ⟨hy, hyi⟩ := FreeIndices.mem_erase.mp hy
  intro hx
  rw [hx] at hyx
  exact hnew _ (FreeIndices.has_of_mem hy) hyi hyx

omit [Scalar R] in
/-- Under a sum, the new name stands for the old one only. -/
theorem image_under (hnew : ∀ k, a.free.has k → k ≠ i → ρ.onIndex (.free k) ≠ .free i')
    {x : FreeIndex} : Renaming.Image ((i, .free i') :: ρ) a.free x ↔
      (x.id = i' ∧ ⟨i, x.dim⟩ ∈ a.free) ∨ (x.id ≠ i' ∧ ρ.Image (a.free.erase i) x) := by
  constructor
  · rintro ⟨y, hy, hyx, hdim⟩
    -- the index of the sum, or one that is also free outside
    by_cases hyi : y.id = i
    · rw [hyi, Renaming.onIndex_cons_self] at hyx
      refine .inl ⟨(Index.free.inj hyx).symm, ?_⟩
      rwa [← hyi, ← hdim]
    · rw [Renaming.onIndex_cons_of_ne hyi] at hyx
      have himage : ρ.Image (a.free.erase i) x :=
        ⟨y, FreeIndices.mem_erase.mpr ⟨hy, hyi⟩, hyx, hdim⟩
      exact .inr ⟨ne_of_image hnew himage, himage⟩
  -- both kinds of indices come from the operand
  · rintro (⟨rfl, hx⟩ | ⟨-, y, hy, hyx, hdim⟩)
    · exact ⟨_, hx, Renaming.onIndex_cons_self, rfl⟩
    · obtain ⟨hy, hyi⟩ := FreeIndices.mem_erase.mp hy
      exact ⟨y, hy, by rw [Renaming.onIndex_cons_of_ne hyi, hyx], hdim⟩

/-- Beneath the sum, the indices have positions that match at every step. -/
theorem carries_under (happly : UnaryOp.apply (.indexSum i) a = .ok (unary (.indexSum i) a))
    (hnew : ∀ k, a.free.has k → k ≠ i → ρ.onIndex (.free k) ≠ .free i')
    (hcarry : ρ.Carries (unary (.indexSum i) a).free σ τ) (j : Nat) :
    Renaming.Carries ((i, .free i') :: ρ) a.free (σ.bind [i'] [j]) (τ.bind [i] [j]) := by
  intro k hk
  -- the new index has the position of the old one, and the others are not touched
  by_cases hki : k = i
  · rw [hki, Renaming.onIndex_cons_self, Env.bind_self]
    exact Env.bind_self σ i' j
  · have hk' := hcarry k (has_of_operand happly hk fun hb => hki (List.mem_singleton.mp hb))
    have hne := hnew k hk hki
    rw [Renaming.onIndex_cons_of_ne hki, Env.bind_of_ne τ j hki, ← hk']
    cases hon : ρ.onIndex (.free k) with
    | fixed p => rfl
    | free l =>
      refine Env.bind_of_ne σ j ?_
      rintro rfl
      exact hne hon

/-- What the index of a sum is renamed to is not free in the sum, and the other indices are
those of the sum. -/
theorem carried_sum (hnew : ∀ k, a.free.has k → k ≠ i → ρ.onIndex (.free k) ≠ .free i')
    (ha : Carried ((i, .free i') :: ρ) a a') (hc : Canonical (unary (.indexSum i') a')) :
    Carried ρ (unary (.indexSum i) a) (unary (.indexSum i') a') := by
  refine ⟨hc, ?_, fun x => ?_⟩
  · rw [shape_unary, shape_unary]
    exact ha.shape
  · rw [free_unary, free_unary]
    -- only the index of the sum has the new index for its image
    show x ∈ a'.free.erase i' ↔ ρ.Image (a.free.erase i) x
    rw [FreeIndices.mem_erase, ha.free, image_under hnew]
    constructor
    · rintro ⟨⟨hx, -⟩ | ⟨-, hx⟩, hne⟩
      · exact absurd hx hne
      · exact hx
    · intro hx
      have hne := ne_of_image hnew hx
      exact ⟨.inr ⟨hne, hx⟩, hne⟩

/-- **A sum follows under another name of its index.** -/
theorem follows_sum (hca : Canonical a)
    (happly : UnaryOp.apply (.indexSum i) a = .ok (unary (.indexSum i) a))
    (hd : (unary (.indexSum i) a).Determined) (hfit : ρ.Fits (unary (.indexSum i) a).free)
    (hnew : ∀ k, a.free.has k → k ≠ i → ρ.onIndex (.free k) ≠ .free i')
    (ha : Follows ((i, .free i') :: ρ) a a') (halike : Alike a a') :
    Follows ρ (unary (.indexSum i) a) (unary (.indexSum i') a') := by
  have hca' := ha.carried.canonical
  have hfree : ∀ x, x ∈ a'.free ↔ _ := fun x => (ha.carried.free x).trans (image_under hnew)
  -- both sums have as many terms
  have hdim : a'.free.dim? i' = a.free.dim? i := by
    ext d
    rw [hca'.sorted.dim?_eq_some, hca.sorted.dim?_eq_some, hfree]
    simp
  obtain ⟨hhas, hz⟩ := sumOver_built happly
  obtain ⟨d, hd'⟩ := FreeIndices.has_iff.mp hhas
  have hhas' : a'.free.has i' := FreeIndices.has_iff.mpr ⟨d, (hfree _).mpr (.inl ⟨rfl, hd'⟩)⟩
  -- the operand is not zero, so the sum is a node
  have hr : UnaryOp.apply (.indexSum i') a' = .ok (unary (.indexSum i') a') := by
    obtain ⟨r, hr⟩ := exists_sumOver hhas'
    cases hz with
    | node hz =>
      rw [UnaryOp.apply, hr]
      cases (sumOver_built hr).2 with
      | zero hz' => simp [halike.isZero, hz] at hz'
      | node => rfl
  exact follows_sumOver hca happly hd hfit ha hdim
    (fun σ τ hcarry j => carries_under happly hnew hcarry j) hr
    (carried_sum hnew ha.carried (canonical_unary hca' hr))

end Sums

/-! ## Other names, the same components -/

/-- **An operator that binds nothing follows** over an operand under other names. -/
theorem follows_alike {op : UnaryOp} (hop : op.ByComponents) (hbound : op.bound = [])
    (hca : Canonical a) (happly : op.apply a = .ok (unary op a)) (hd : (unary op a).Determined)
    (hfit : ρ.Fits (unary op a).free) (ha : Follows ρ a a') (halike : Alike a a') :
    Follows ρ (unary op a) (unary (ρ.onOp op) a') := by
  have hcarried : Carried (ρ.without op.bound) a a' := by
    rw [hbound, ρ.without_nil]
    exact ha.carried
  have habs : op = .abs → ∃ r, a'.abs = .ok r := by
    rintro rfl
    exact ⟨_, halike.abs happly⟩
  -- the operator is built over the second operand, and what is built is a node
  obtain ⟨r, hr⟩ := exists_apply_renamed (fun ids h => by rw [h] at hop; cases hop) happly
    (hbound ▸ Renaming.avoids_nil) hfit hcarried (.inl hop.computes) habs
  obtain rfl := halike.apply hop hbound happly hr
  exact follows_onOp hop hbound hca happly hd hfit ha hr

/-- **Algebra follows** over operands under other names. -/
theorem follows_alike₂ {op : BinaryOp} (hca : Canonical a) (hcb : Canonical b)
    (happly : op.apply a b = .ok (binary op a b)) (hd : (binary op a b).Determined)
    (hpos : op ≠ .product → (a.Positive ↔ b.Positive)) (hfit : ρ.Fits (binary op a b).free)
    (ha : Follows ρ a a') (hb : Follows ρ b b') (halikea : Alike a a') (halikeb : Alike b b') :
    Follows ρ (binary op a b) (binary op a' b') := by
  have hz : op = .division → b'.isZero = false := by
    rintro rfl
    exact halikeb.isZero.trans (div_built happly).2.1
  obtain ⟨r, hr⟩ := exists_apply_renamed₂ hca hcb happly hfit ha.carried hb.carried hz
  obtain rfl := halikea.apply₂ halikeb happly hr
  exact follows_binary hca hcb happly hd hpos hfit ha hb hr fun _ _ _ _ _ _ _ _ hs => hs

/-- A chain has no sums. What it is indexed with gets new names. -/
theorem Rebound.chain (h : Rebound ρ e e') (hc : Canonical e) (hm : e.isModifiedTerminal)
    (hz : e.isZero = false) : e' = e.mapIndices ρ.onIndex := by
  induction hc generalizing e' with
  | binary | listTensor => cases hm
  | leaf =>
    cases h with
    | terminal => rfl
    | zero => cases hz
  | @unary op a hca happly ih =>
    rw [isModifiedTerminal, Bool.and_eq_true] at hm
    cases h with
    | indexSum => cases hm.1
    | unary _ _ ha =>
      rw [UnaryOp.bound_of_isModifier hm.1, ρ.without_nil] at ha
      rw [ih ha hm.2 (operand_not_zero hm.1 happly), Renaming.onOp_eq]
      rfl

/-- **Other names of summation indices give the same components.** -/
theorem Rebound.follows (h : Rebound ρ e e') (hs : Scalarizable e) (hc : Canonical e)
    (hn : ρ.Names) (hfit : ρ.Fits e.free) : Follows ρ e e' := by
  -- along the expression; under a sum, one index more is renamed
  induction hs generalizing ρ e' with
  | @terminal e hm hd =>
    cases hz : e.isZero with
    | false =>
      rw [h.chain hc hm hz]
      exact follows_chain hc hm hz hd hfit
    | true =>
      refine follows_zero ?_ hz ((h.alike hn).isZero.trans hz)
      cases h with
      | terminal ht => exact carried_self hc (by rw [free_leaf, ht]; rfl)
      | zero =>
        have hsorted := hfit.sorted_onFree hc.sorted
        rw [free_leaf] at hsorted
        exact carried_zero hsorted
      | indexSum | unary | binary | listTensor => cases hz
  | @unary op a hop hm hsa hd ih =>
    cases hc with
    | unary hca happly =>
    cases h with
    | indexSum hnew ha =>
      have ha' := ih ha hca hn.cons (fits_under happly hfit hnew)
      exact follows_sum hca happly hd hfit hnew ha' (ha.alike hn.cons)
    | unary hsum hav ha =>
      have hbound := hop.bound_eq_nil hsum
      have hfita := hfit.inside happly hav
      rw [hbound, ρ.without_nil] at ha hfita
      exact follows_alike hop hbound hca happly hd hfit (ih ha hca hn hfita) (ha.alike hn)
  | @binary op a b hsa hsb hpos hd iha ihb =>
    cases hc with
    | binary hca hcb happly =>
    cases h with
    | binary ha hb =>
      obtain ⟨hfita, hfitb⟩ := fits_operands hfit hca hcb happly
      exact follows_alike₂ hca hcb happly hd hpos hfit (iha ha hca hn hfita)
        (ihb hb hcb hn hfitb) (ha.alike hn) (hb.alike hn)

/-- **Other names of summation indices give the same list.** -/
theorem scalarize_rebound [DecidableEq R] {as : Array (Expr R)} (hc : Canonical e)
    (h : Rebound [] e e') (has : scalarize e = .ok as) : scalarize e' = .ok as := by
  obtain ⟨hlist, hs⟩ := componentwise_scalarize hc has
  obtain ⟨hcarried, hs', hcomponent⟩ :=
    h.follows hs hc Renaming.names_nil (Renaming.fits_nil e.free)
  obtain ⟨bs, hbs, hlist'⟩ := hs'.scalarize hcarried.canonical
  -- at the top no index is renamed, so the layouts are the same
  have hfree : e'.free = e.free := by
    refine hcarried.canonical.sorted.eq_of_mem_iff hc.sorted fun x => ?_
    rw [hcarried.free]
    constructor
    · rintro ⟨y, hy, hyx, hdim⟩
      rwa [← FreeIndex.eq_of_id_of_dim (Index.free.inj hyx) hdim]
    · intro hx
      exact ⟨x, hx, rfl, rfl⟩
  have heq : bs = as := hlist.ext hlist' hc.sorted hcarried.shape hfree fun c σ hcs hσ =>
    hcomponent c σ σ hcs hσ fun _ _ => rfl
  rw [hbs, heq]

end Expr

/-! ## The graph -/

namespace ScalarGraph

open Building WeakForm.Expr

variable {R : Type} [Scalar R] [DecidableEq R] {g g' : ScalarGraph R}

/-- What a graph is made of could be scalarized. -/
theorem exists_scalarize {es : List (Expr R)} (h : ofTargets es = .ok g) :
    ∀ e ∈ es, ∃ as, scalarize e = .ok as := by
  obtain ⟨components, hall, -⟩ := ofTargets_eq_ok.mp h
  intro e he
  obtain ⟨as, -, has⟩ := exists_left_of_mem hall.flip he
  exact ⟨as, has⟩

/-- **The graph does not depend on the names of summation indices.** -/
theorem ofTargets_rebound {es es' : List (Expr R)} (hb : ∀ e ∈ es, Built e)
    (h : List.Forall₂ (Rebound []) es es') (hg : ofTargets es = .ok g) : ofTargets es' = .ok g := by
  -- the graph depends on what the expressions are scalarized to, and on nothing else of them
  have hscalars : es'.map scalarize = es.map scalarize := by
    have hsame := forall₂_imp_of_mem h fun e he e' hr => show scalarize e' = scalarize e by
      obtain ⟨as, has⟩ := exists_scalarize hg e he
      rw [has, scalarize_rebound (hb e he).canonical hr has]
    exact (List.forall₂_eq_eq_eq ▸ List.forall₂_map_right_iff.mpr
      (List.forall₂_map_left_iff.mpr hsame.flip) : es'.map scalarize = es.map scalarize)
  rw [ofTargets, scalarizeAll_eq] at hg ⊢
  rw [hscalars, hg]

end ScalarGraph

namespace Expr.TwoVectors

open ScalarGraph

/-- The products of the components, summed over another index. -/
def renamed : Expr ℚ :=
  unary (.indexSum 7) (binary .product (entry 0 (.free 7)) (entry 1 (.free 7)))

/-- Only the index 0 occurs. -/
theorem occurs_implicit {i : IndexId} (h : Occurs i implicit) : i = 0 := by
  -- an entry names nothing but its index
  have hentry : ∀ {count}, Occurs i (entry count (.free 0)) → i = 0 := fun h => by
    cases h with
    | bound h => cases h
    | entry h => exact Index.free.inj (List.mem_singleton.mp h)
    | operand h =>
      cases h with
      | leaf h => cases h
  cases h with
  | bound h => exact List.mem_singleton.mp h
  | entry h => cases h
  | operand h =>
    cases h with
    | left h => exact hentry h
    | right h => exact hentry h

/-- The index that is summed over may as well be called by another name. -/
theorem rebound_implicit : Rebound [] implicit renamed := by
  have hnew : ∀ i, ¬Occurs (i + 7) implicit := fun i h =>
    absurd (occurs_implicit h) (Nat.succ_ne_zero (i + 6))
  exact rebound_rebind built_implicit.canonical (add_left_injective 7) hnew fun _ => .inl rfl

/-- What describes the component of a vector. -/
def descriptor (count j : Nat) : ModifiedTerminal ℚ where
  terminal := .coefficient ⟨count, ⟨1, 1, [2]⟩, .ofCell .triangle 0⟩
  physical := []
  reference := []
  component := [j]
  restriction := none
  averaged := none
  expr := entry count (.fixed j)

/-- Both components of both coefficients are terminals. -/
theorem analyse_entry {count j : Nat} (h : count = 0 ∨ count = 1) (hj : j = 0 ∨ j = 1) :
    (entry count (.fixed j)).analyse = .ok (some (descriptor count j)) := by
  rcases h with rfl | rfl
  all_goals rcases hj with rfl | rfl
  all_goals cbv

/-- The sum written out can be inserted. -/
theorem insertable_explicit : Insertable explicit := by
  have hentry : ∀ {count j}, count = 0 ∨ count = 1 → j = 0 ∨ j = 1 →
      Insertable (entry count (.fixed j)) := fun h hj => .terminal rfl (analyse_entry h hj)
  have hproduct : ∀ {j}, j = 0 ∨ j = 1 →
      Insertable (binary .product (entry 0 (.fixed j)) (entry 1 (.fixed j))) := fun hj =>
    .binary (hentry (.inl rfl) hj) (hentry (.inr rfl) hj)
  exact .binary (hproduct (.inl rfl)) (hproduct (.inr rfl))

/-- The graph of the product is that of the sum which is written out. -/
theorem exists_ofTargets_implicit : ∃ g, ofTargets [implicit] = .ok g := by
  have hc : Canonical explicit := by
    have hlist := scalarizeAll_implicit
    rw [scalarizeAll_eq, List.map_singleton, List.singleton_inj] at hlist
    exact scalarize_canonical built_implicit.canonical hlist _ (by simp)
  have hcs : ∀ e ∈ [explicit], Canonical e := by simpa using hc
  -- its only target is the sum written out
  obtain ⟨g, hg, -⟩ := ofTargets_insertable hcs (by simpa using insertable_explicit)
  rw [ofTargets, scalarizeAll_eq, List.map_singleton, scalarize_insertable hc insertable_explicit,
    ← scalarizeAll_implicit] at hg
  exact ⟨g, hg⟩

end Expr.TwoVectors

/-- The product of two vectors has one graph, whichever index it is summed over. -/
theorem ScalarGraph.ofTargets_rebound_twoVectors :
    ∃ g, ofTargets [Expr.TwoVectors.implicit] = .ok g ∧
      ofTargets [Expr.TwoVectors.renamed] = .ok g := by
  obtain ⟨g, hg⟩ := Expr.TwoVectors.exists_ofTargets_implicit
  refine ⟨g, hg, ofTargets_rebound (fun e he => ?_)
    (.cons Expr.TwoVectors.rebound_implicit .nil) hg⟩
  rw [List.mem_singleton.mp he]
  exact Expr.TwoVectors.built_implicit

end WeakForm
