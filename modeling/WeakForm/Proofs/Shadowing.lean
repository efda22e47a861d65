import WeakForm.Proofs.NormalForm

/-!
# What a substitution replaces

A substitution is given by a map of all indices, and it replaces the free ones. What the map
says of an index that is not free plays no part, also where that index is bound somewhere in
the expression, and where an index is free in one place and bound in another, only the free
one is replaced. The binders themselves stay: what the result binds was bound before.

So a substitution is correct as soon as no replacement of a free index is bound in the
expression. The map need not be injective on the free indices and its positions need not be
in range: where that makes a constructor fail there is no result, and elsewhere the result
has the value that it should have.

* `Renaming.AgreesWith`, `rename_congr` — maps with the same replacements of free indices;
* `binds_of_rename` — the indices that the result binds;
* `captureFree_of_free` — where no replacement of a free index is bound, none is captured;
* `substitute_value` — shape, free indices, value and bound indices of the result.
-/

namespace WeakForm

namespace Renaming

variable {ρ ρ' : Renaming} {free : FreeIndices}

/-- Both renamings have the same replacements of the given free indices. -/
def AgreesWith (ρ' ρ : Renaming) (free : FreeIndices) : Prop :=
  ∀ i, free.has i → ρ'.find? i = ρ.find? i

theorem AgreesWith.onIndex (h : ρ'.AgreesWith ρ free) {i : IndexId} (hi : free.has i) :
    ρ'.onIndex (.free i) = ρ.onIndex (.free i) := by
  rw [Renaming.onIndex, Renaming.onIndex, h i hi]

/-- Renamings that agree on the free indices touch the same of them. -/
theorem AgreesWith.touches (h : ρ'.AgreesWith ρ free) : ρ'.touches free = ρ.touches free := by
  rw [Renaming.touches, Renaming.touches, Bool.eq_iff_iff, List.any_eq_true, List.any_eq_true]
  refine exists_congr fun x => and_congr_right fun hx => ?_
  rw [h x.id (FreeIndices.has_of_mem hx)]

/-- Renamings that agree on the free indices give the same free indices. -/
theorem AgreesWith.onFree (h : ρ'.AgreesWith ρ free) : ρ'.onFree free = ρ.onFree free := by
  unfold Renaming.onFree
  refine congrArg FreeIndices.sort (List.filterMap_congr fun x hx => ?_)
  rw [h.onIndex (FreeIndices.has_of_mem hx)]

end Renaming

namespace Expr

variable {R : Type} [Scalar R] {ρ ρ' : Renaming} {a b e r : Expr R}

/-! ## Replacements that are not made -/

/-- What is free in the operand and not bound is free in the node. -/
theorem agreesWith_inside {op : UnaryOp} (happly : op.apply a = .ok e)
    (h : ρ'.AgreesWith ρ e.free) : (ρ'.inside op).AgreesWith (ρ.inside op) a.free := by
  intro i hi
  rw [Renaming.inside_eq, Renaming.inside_eq]
  by_cases hb : i ∈ op.bound
  · rw [Renaming.find?_without_of_mem hb, Renaming.find?_without_of_mem hb]
  · rw [Renaming.find?_without_of_not_mem hb, Renaming.find?_without_of_not_mem hb]
    exact h i (has_of_operand happly hi hb)

/-- The indices that an operator is written with are free in the node. -/
theorem onOp_congr {op : UnaryOp} (happly : op.apply a = .ok e) (h : ρ'.AgreesWith ρ e.free) :
    ρ'.onOp op = ρ.onOp op := by
  rw [Renaming.onOp_eq, Renaming.onOp_eq]
  refine UnaryOp.mapIndices_congr (List.map_congr_left fun j hj => ?_)
  cases j with
  | fixed p => rfl
  | free i => exact h.onIndex (has_of_entry happly hj)

/-- Renamings that agree on the free indices agree on those of the operands. -/
theorem agreesWith_operands {op : BinaryOp} (ha : a.free.Sorted) (hb : b.free.Sorted)
    (happly : op.apply a b = .ok e) (h : ρ'.AgreesWith ρ e.free) :
    ρ'.AgreesWith ρ a.free ∧ ρ'.AgreesWith ρ b.free := by
  constructor
  · exact fun i hi => h i (has_of_left ha hb happly hi)
  · exact fun i hi => h i (has_of_right ha hb happly hi)

/-- **Only the replacements of free indices count.** -/
theorem rename_congr (hc : Canonical e) (h : ρ'.AgreesWith ρ e.free) :
    rename ρ' e = rename ρ e := by
  induction hc generalizing ρ ρ' with
  | @leaf t ht =>
    rw [rename.eq_def, rename.eq_def ρ, h.touches]
    -- only a zero has indices of its own
    cases t with
    | zero shape free =>
      have honFree : ρ'.onFree free = ρ.onFree free := by
        rw [free_leaf] at h
        exact h.onFree
      simp only [honFree]
    | argument | coefficient | geometry | literal => rfl
  | @unary op a hca happly ih =>
    rw [rename.eq_def, rename.eq_def ρ, h.touches]
    -- inside the operator, renamings agree on what it does not bind
    simp only [onOp_congr happly h, ih (agreesWith_inside happly h)]
  | binary hca hcb happly iha ihb =>
    obtain ⟨ha, hb⟩ := agreesWith_operands hca.sorted hcb.sorted happly h
    rw [rename.eq_def, rename.eq_def ρ, h.touches]
    simp only [iha ha, ihb hb]
  | @listTensor items hci happly ih =>
    -- all items have the same free indices
    have hitems : renameAll ρ' items = renameAll ρ items := by
      rw [renameAll_eq_mapM, renameAll_eq_mapM]
      refine mapM_congr fun item hm => ih item hm ?_
      rwa [← (attributes_item happly hm).2]
    rw [rename.eq_def, rename.eq_def ρ, h.touches]
    simp only [hitems]

/-! ## Binders -/

/-- **A substitution adds no binder**, whatever it replaces. -/
theorem binds_of_rename (h : rename ρ e = .ok r) {i : IndexId} (hi : Binds r i) : Binds e i := by
  induction e generalizing ρ r with
  | leaf t =>
    obtain ⟨s, rfl⟩ := rename_leaf h
    exact absurd hi (not_binds_leaf s i)
  | unary op a ih =>
    rw [rename.eq_def] at h
    split at h
    · obtain ⟨a', ha, h⟩ := bind_eq_ok.mp h
      -- what is built is an operand, a constant or the node, and a constant binds nothing
      rcases unary_outcome h with rfl | hconst | rfl
      · exact .inside (ih ha hi)
      · obtain ⟨t, rfl⟩ := leaf_of_isConstantValue hconst
        exact absurd hi (not_binds_leaf t i)
      · cases hi with
        | here hi => exact .here (by rwa [bound_onOp] at hi)
        | inside hi => exact .inside (ih ha hi)
    · cases h
      exact hi
  | binary op a b iha ihb =>
    rw [rename.eq_def] at h
    split at h
    · obtain ⟨a', ha, h⟩ := bind_eq_ok.mp h
      obtain ⟨b', hb, h⟩ := bind_eq_ok.mp h
      -- a binary operator folds to one of its operands, to a constant, or to its node
      rcases binary_outcome h with rfl | rfl | hconst | rfl
      · exact .left (iha ha hi)
      · exact .right (ihb hb hi)
      · obtain ⟨t, rfl⟩ := leaf_of_isConstantValue hconst
        exact absurd hi (not_binds_leaf t i)
      · cases hi with
        | left hi => exact .left (iha ha hi)
        | right hi => exact .right (ihb hb hi)
    · cases h
      exact hi
  | listTensor items ih =>
    rw [rename.eq_def] at h
    split at h
    · obtain ⟨items', hitems, h⟩ := bind_eq_ok.mp h
      rw [renameAll_eq_mapM] at hitems
      obtain ⟨first, rest, heq, -, hr⟩ := stack_built h
      -- a list of zeros binds nothing
      cases hr with
      | zero => exact absurd hi (not_binds_leaf _ i)
      | node =>
        rw [← heq] at hi
        cases hi with
        | item hm hi =>
          obtain ⟨item, hmem, hitem⟩ := mem_of_mapM hitems hm
          exact .item hmem (ih item hmem hitem hi)
    · cases h
      exact hi

/-- Where no replacement of a free index is bound, none is captured. -/
theorem captureFree_of_free (hc : Canonical e)
    (h : ∀ i j, e.free.has i → ρ.find? i = some (.free j) → ¬Binds e j) : CaptureFree ρ e := by
  induction hc generalizing ρ with
  | leaf => exact .leaf
  | @unary op a hca happly ih =>
    refine .unary (fun i hi hb j hj hfind => ?_) (ih fun i j hi hfind hj => ?_)
    -- an index that the node binds is not free outside
    · exact h i j (has_of_operand happly hi hb) hfind (.here hj)
    · -- what is replaced inside is not bound, and so it is free in the node
      have hb : i ∉ op.bound := fun hb => by
        rw [Renaming.inside_eq, Renaming.find?_without_of_mem hb] at hfind
        cases hfind
      exact h i j (has_of_operand happly hi hb) (find?_of_inside hfind) (.inside hj)
  | binary hca hcb happly iha ihb =>
    -- the indices of an operand are those of the node
    refine .binary (iha fun i j hi hfind hj => ?_) (ihb fun i j hi hfind hj => ?_)
    · exact h i j (has_of_left hca.sorted hcb.sorted happly hi) hfind (.left hj)
    · exact h i j (has_of_right hca.sorted hcb.sorted happly hi) hfind (.right hj)
  | listTensor hci happly ih =>
    refine .listTensor fun item hm => ih item hm fun i j hi hfind hj => ?_
    rw [← (attributes_item happly hm).2] at hi
    exact h i j hi hfind (.item hm hj)

/-! ## The result -/

/-- **Substitution is correct where it captures nothing.** Whenever it returns, the result has
the shape of the expression, its free indices are the sorted images of the free indices with
their dimensions, and it has the value of the expression at the positions that the images
stand for. It binds what was bound, and what the map says of other indices plays no part. -/
theorem substitute_value {A : Type} [Field A] {M : Model R A} (leaves : Expr R → A)
    [DecidableEq R] (hM : M.Exact) (hq : M.ExactQuotients) (hfun : M.ExactFunctions)
    (hb : Built e) (hint : Integrand e)
    (hbound : ∀ i j, e.free.has i → ρ.find? i = some (.free j) → ¬Binds e j)
    (h : e.substitute ρ = .ok r) :
    r.shape = e.shape ∧
      (r.free.Sorted ∧ ∀ x, x ∈ r.free ↔
        ∃ y ∈ e.free, ρ.onIndex (.free y.id) = .free x.id ∧ y.dim = x.dim) ∧
      (∀ c σ, c.length = e.rank → r.value (M.withLeaves leaves) c σ =
        e.value (M.withLeaves leaves) c fun i => σ.resolve (ρ.onIndex (.free i))) ∧
      (∀ j, Binds r j → Binds e j) ∧
      ∀ ρ' : Renaming, ρ'.AgreesWith ρ e.free → e.substitute ρ' = .ok r := by
  rw [substitute_eq_rename] at h
  have hc := hb.canonical
  have hren : Renamed M leaves ρ e r :=
    rename_renamed hM hq hfun hc hint (captureFree_of_free hc hbound) h
  refine ⟨hren.shape, ⟨hren.canonical.sorted, hren.free⟩, fun c σ hl => ?_,
    fun j hj => binds_of_rename h hj, fun ρ' hρ' => ?_⟩
  · exact hren.value c σ _ hl fun i _ => rfl
  · rw [substitute_eq_rename, rename_congr hc hρ', h]

/-! ### An index that is free beside a sum and bound in it

The product `v[i] ∑ᵢ w[i]`, where `i` is 1 in the sum and any index outside. -/

namespace Shadowed

/-- `∑ᵢ w[i]`, where `i` is 1. -/
def total : Expr ℚ :=
  unary (.indexSum 1) (Contraction.entry 1 1)

def scaled (i : IndexId) : Expr ℚ :=
  binary .product (Contraction.entry 0 i) total

/-- The product is built by the constructors. -/
theorem built_scaled : Built (scaled 1) := by
  -- both vectors have the same index, free in one and summed over in the other
  have hv : UnaryOp.apply (.indexed [.free 1]) (Contraction.vector 0) =
      .ok (Contraction.entry 0 1) := by
    cbv
  have hw : UnaryOp.apply (.indexed [.free 1]) (Contraction.vector 1) =
      .ok (Contraction.entry 1 1) := by
    cbv
  have hsum : UnaryOp.apply (.indexSum 1) (Contraction.entry 1 1) = .ok total := by
    cbv
  have hproduct : BinaryOp.apply .product (Contraction.entry 0 1) total = .ok (scaled 1) := by
    cbv
  exact .binary (.unary (.coefficient _) hv) (.unary (.unary (.coefficient _) hw) hsum) hproduct

theorem integrand_scaled : Integrand (scaled 1) := by
  have hsum : (UnaryOp.indexSum 1).Computes := nofun
  exact .binary (.chain rfl) (.unary hsum (.chain rfl))

/-- The product binds no index 3. -/
theorem not_binds_scaled : ¬Binds (scaled 1) 3 := by
  intro h
  cases h with
  | left h => exact not_binds_chain rfl 3 h
  | right h =>
    cases h with
    | here h => exact absurd h (by decide)
    | inside h => exact not_binds_chain rfl 3 h

theorem substitute_scaled : (scaled 1).substitute [(1, .free 3)] = .ok (scaled 3) := by
  rw [substitute_eq_rename]
  with_unfolding_all rfl

end Shadowed

/-- The factor outside the sum is renamed, and the sum is not. -/
theorem substitute_value_scaled :
    (Shadowed.scaled 1).substitute [(1, .free 3)] = .ok (Shadowed.scaled 3) ∧
      (Shadowed.scaled 3).shape = (Shadowed.scaled 1).shape ∧
      ∀ σ : Env, (Shadowed.scaled 3).value
          ((Model.rational (fun _ _ => 0) fun _ _ _ _ _ => 0).withLeaves fun e =>
            if e.core = (Contraction.vector 0).core then 2 else 3) [] σ =
        (Shadowed.scaled 1).value
          ((Model.rational (fun _ _ => 0) fun _ _ _ _ _ => 0).withLeaves fun e =>
            if e.core = (Contraction.vector 0).core then 2 else 3) []
          fun i => σ.resolve (Renaming.onIndex [(1, .free 3)] (.free i)) := by
  have hbound : ∀ i j, (Shadowed.scaled 1).free.has i →
      Renaming.find? [(1, .free 3)] i = some (.free j) → ¬Binds (Shadowed.scaled 1) j := by
    intro i j _ hfind
    -- the map has one replacement only
    have hzip : Renaming.find? ([1].zip [.free 3]) i = some (.free j) := hfind
    obtain rfl : j = 3 := by simpa using mem_of_find?_zip hzip
    exact Shadowed.not_binds_scaled
  have h := Shadowed.substitute_scaled
  obtain ⟨hshape, -, hvalue, -⟩ := substitute_value
    (fun e => if e.core = (Contraction.vector 0).core then 2 else 3)
    Model.rational_exact Model.rational_exactQuotients Model.rational_exactFunctions
    Shadowed.built_scaled Shadowed.integrand_scaled hbound h
  exact ⟨h, hshape, fun σ => hvalue [] σ (by cbv)⟩

end Expr

end WeakForm
