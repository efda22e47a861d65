import WeakForm.Expr.Normalization
import WeakForm.Proofs.ListItems
import WeakForm.Proofs.Renamings

/-!
# Reduction of indexed tensors

Two expressions are equivalent if they have one shape, the same free indices and the same
values. An indexed list tensor is equivalent to the item that it selects. An indexed
component tensor is equivalent to its body with the bound indices replaced by those of the
indexing, where the renaming captures nothing: the body is read at the positions which the
indexing selects.

* `resolve_zip`, `image_zip` — what a renaming of paired indices does;
* `Equivalent` — equality of shapes, free indices and values;
* `equivalent_tensor`, `equivalent_item` — the two reductions.
-/

namespace WeakForm

/-! ## Paired indices -/

section Pairs

variable {ids : List IndexId} {is : List Index} {i : IndexId} {x : FreeIndex}

/-- A renaming leaves other indices as they are. -/
theorem onIndex_zip_of_not_mem (h : i ∉ ids) :
    Renaming.onIndex (ids.zip is) (.free i) = .free i := by
  have hnone : Renaming.find? (ids.zip is) i = none := by
    rw [Renaming.find?, List.lookup_eq_none_iff]
    intro p hp
    have hne : i ≠ p.1 := by
      rintro rfl
      exact h (List.of_mem_zip hp).1
    exact bne_iff_ne.mpr hne
  rw [Renaming.onIndex, hnone, Option.getD_none]

/-- A renaming puts in what is paired with the index. -/
theorem onIndex_zip_of_mem {j : Index} (hnodup : ids.Nodup) (h : (i, j) ∈ ids.zip is) :
    Renaming.onIndex (ids.zip is) (.free i) = j := by
  induction ids generalizing is with
  | nil => cases h
  | cons k ids ih =>
    cases is with
    | nil => cases h
    | cons l is =>
      obtain ⟨hk, hnodup⟩ := List.nodup_cons.mp hnodup
      rw [Renaming.onIndex, Renaming.find?, List.zip_cons_cons, List.lookup_cons]
      rcases List.mem_cons.mp h with heq | hmem
      -- the first index, which is found at once
      · cases heq
        rw [beq_self_eq_true, Option.getD_some]
      -- a later index is not the first one, since no index is repeated
      · have hne : i ≠ k := by
          rintro rfl
          exact hk (List.of_mem_zip hmem).1
        rw [beq_eq_false_iff_ne.mpr hne]
        exact ih hnodup hmem

/-- Replacements stand for the positions that bound indices are given. -/
theorem resolve_zip (σ : Env) (h : ids.length = is.length) :
    σ.resolve (Renaming.onIndex (ids.zip is) (.free i)) = σ.bind ids (is.map σ.resolve) i := by
  rw [Renaming.onIndex, Renaming.find?, Env.bind]
  induction ids generalizing is with
  | nil => rfl
  | cons k ids ih =>
    cases is with
    | nil => cases h
    | cons l is =>
      rw [List.map_cons, List.zip_cons_cons, List.zip_cons_cons, List.lookup_cons,
        List.lookup_cons]
      cases i == k with
      | true => rfl
      | false => exact ih (Nat.succ.inj h)

/-- What an index is replaced by ranges over the axis that the index is paired with. -/
theorem exists_onIndex_zip {shape : List Nat} (hl : ids.length = is.length)
    (hshape : ids.length = shape.length) (hnodup : ids.Nodup) (hi : i ∈ ids) :
    ∃ d, (i, d) ∈ ids.zip shape ∧
      (Renaming.onIndex (ids.zip is) (.free i), d) ∈ is.zip shape := by
  -- the place of the index among the others
  obtain ⟨k, hk⟩ := List.mem_iff_getElem?.mp hi
  have hlt : k < ids.length := (List.getElem?_eq_some_iff.mp hk).1
  obtain ⟨j, hj⟩ : ∃ j, is[k]? = some j := ⟨_, List.getElem?_eq_getElem (hl ▸ hlt)⟩
  obtain ⟨d, hd⟩ : ∃ d, shape[k]? = some d := ⟨_, List.getElem?_eq_getElem (hshape ▸ hlt)⟩
  have hpair : (i, j) ∈ ids.zip is :=
    List.mem_of_getElem? (List.getElem?_zip_eq_some.mpr ⟨hk, hj⟩)
  rw [onIndex_zip_of_mem hnodup hpair]
  exact ⟨d, List.mem_of_getElem? (List.getElem?_zip_eq_some.mpr ⟨hk, hd⟩),
    List.mem_of_getElem? (List.getElem?_zip_eq_some.mpr ⟨hj, hd⟩)⟩

/-- The images of indices, where some of them are replaced in pairs. Those that are replaced
range over given axes. -/
theorem image_zip {free : FreeIndices} {shape : List Nat} (hl : ids.length = is.length)
    (hshape : ids.length = shape.length) (hnodup : ids.Nodup)
    (hfree : ∀ i d, (i, d) ∈ ids.zip shape → (⟨i, d⟩ : FreeIndex) ∈ free)
    (hone : ∀ x ∈ free, ∀ y ∈ free, x.id = y.id → x = y) :
    Renaming.Image (ids.zip is) free x ↔
      (x ∈ free ∧ x.id ∉ ids) ∨ (.free x.id, x.dim) ∈ is.zip shape := by
  constructor
  · rintro ⟨y, hy, hon, hdim⟩
    -- an index of the tensor becomes what is put in for it, any other stays
    by_cases hmem : y.id ∈ ids
    · right
      obtain ⟨d, haxis, hput⟩ := exists_onIndex_zip hl hshape hnodup hmem
      have hyd : y = ⟨y.id, d⟩ := hone y hy ⟨y.id, d⟩ (hfree y.id d haxis) rfl
      rw [hon] at hput
      rw [← hdim, hyd]
      exact hput
    · left
      rw [onIndex_zip_of_not_mem hmem] at hon
      have hid : y.id = x.id := Index.free.inj hon
      rw [← FreeIndex.eq_of_id_of_dim hid hdim]
      exact ⟨hy, hmem⟩
  · rintro (⟨hx, hmem⟩ | hx)
    · exact ⟨x, hx, onIndex_zip_of_not_mem hmem, rfl⟩
    -- the index put in for the axis in place `k` comes from there
    · obtain ⟨k, hk⟩ := List.mem_iff_getElem?.mp hx
      obtain ⟨hj, hd⟩ := List.getElem?_zip_eq_some.mp hk
      have hlt : k < is.length := (List.getElem?_eq_some_iff.mp hj).1
      obtain ⟨i, hi⟩ : ∃ i, ids[k]? = some i := ⟨_, List.getElem?_eq_getElem (hl ▸ hlt)⟩
      have hpair : (i, Index.free x.id) ∈ ids.zip is :=
        List.mem_of_getElem? (List.getElem?_zip_eq_some.mpr ⟨hi, hj⟩)
      have haxis : (i, x.dim) ∈ ids.zip shape :=
        List.mem_of_getElem? (List.getElem?_zip_eq_some.mpr ⟨hi, hd⟩)
      exact ⟨⟨i, x.dim⟩, hfree i x.dim haxis, onIndex_zip_of_mem hnodup hpair, rfl⟩

end Pairs

namespace Expr

section Reduction

variable {R A : Type} [Scalar R] [Field A] {M : Model R A} {leaves : Expr R → A}
  {a a' b e r : Expr R} {is : List Index}

/-! ## Equivalence -/

/-- An integrand with the shape, the free indices and the values of another expression. -/
structure Equivalent (M : Model R A) (leaves : Expr R → A) (e r : Expr R) : Prop where
  canonical : Canonical r
  integrand : Integrand r
  shape : r.shape = e.shape
  free : r.free = e.free
  value : ∀ c σ, c.length = e.rank →
    r.value (M.withLeaves leaves) c σ = e.value (M.withLeaves leaves) c σ

theorem Equivalent.rank (h : Equivalent M leaves e r) : r.rank = e.rank :=
  congrArg List.length h.shape

theorem Equivalent.refl (hcan : Canonical e) (hint : Integrand e) : Equivalent M leaves e e :=
  ⟨hcan, hint, rfl, rfl, fun _ _ _ => rfl⟩

/-- The free indices are their own images where nothing is replaced. -/
theorem image_nil {free : FreeIndices} {x : FreeIndex} : Renaming.Image [] free x ↔ x ∈ free := by
  constructor
  · rintro ⟨y, hy, heq, hdim⟩
    rwa [← FreeIndex.eq_of_id_of_dim (Index.free.inj heq) hdim]
  · intro hx
    exact ⟨x, hx, rfl, rfl⟩

/-- Equivalence is a renaming that replaces nothing. -/
theorem Equivalent.renamed (hcan : Canonical e) (hint : Integrand e)
    (h : Equivalent M leaves e r) : Renamed M leaves [] e r where
  canonical := h.canonical
  integrand := h.integrand
  shape := h.shape
  free x := by rw [image_nil, h.free]
  value c σ τ hc hagree := by
    rw [h.value c σ hc]
    exact value_congr hcan hint hagree hc

/-- Renaming nothing gives an equivalent expression. -/
theorem Renamed.equivalent (hsorted : e.free.Sorted) (h : Renamed M leaves [] e r) :
    Equivalent M leaves e r where
  canonical := h.canonical
  integrand := h.integrand
  shape := h.shape
  free := h.canonical.sorted.eq_of_mem_iff hsorted fun x => (h.free x).trans image_nil
  value c σ hc := h.value c σ σ hc fun _ _ => rfl

/-- Equivalence is transitive. -/
theorem Equivalent.trans (h : Equivalent M leaves a b) (h' : Equivalent M leaves b r) :
    Equivalent M leaves a r where
  canonical := h'.canonical
  integrand := h'.integrand
  shape := h'.shape.trans h.shape
  free := h'.free.trans h.free
  value c σ hc := by
    rw [h'.value c σ (by rw [hc, h.rank]), h.value c σ hc]

/-! ## Indexed tensors -/

/-- What an indexing adds depends on the shape of the operand alone. -/
theorem Equivalent.mem_free_index (ha : Equivalent M leaves a a')
    (h : UnaryOp.apply (.indexed is) a = .ok (unary (.indexed is) a)) (x : FreeIndex) :
    x ∈ (unary (.indexed is) a).free ↔
      x ∈ a'.free ∨ (Index.free x.id, x.dim) ∈ is.zip a'.shape := by
  rw [mem_free_unary h, ← ha.free, ha.shape]
  show (x ∈ a'.free ∧ x.id ∉ []) ∨ x ∈ Signature.indexedFree is a.shape ↔ _
  rw [Signature.mem_indexedFree]
  simp

/-- **An indexed component tensor is its body with the indices renamed.** -/
theorem equivalent_tensor {ids : List IndexId} {body : Expr R} (hM : M.Exact)
    (hq : M.ExactQuotients) (hfun : M.ExactFunctions)
    (h : UnaryOp.apply (.indexed is) a = .ok (unary (.indexed is) a))
    (ha : Equivalent M leaves a (unary (.componentTensor ids) body))
    (hcf : CaptureFree (ids.zip is) body) (hr : rename (ids.zip is) body = .ok r) :
    Equivalent M leaves (unary (.indexed is) a) r := by
  cases ha.canonical with
  | unary hbody happly =>
    have hint := ha.integrand.operand.1
    obtain ⟨-, hscalar, haxes, -⟩ := tensor_node happly
    obtain ⟨hnodup, hids⟩ := tensorAxes_nodup haxes
    -- the tensor has an axis for each of its ids
    have hshape : (unary (.componentTensor ids) body).shape =
        ids.map fun i => (body.free.dim? i).getD 0 := by
      rw [shape_unary]
      rfl
    have hl : is.length = ids.length := by
      have hrank : is.length = a.shape.length := (index_ok h).1
      rw [hrank, ← ha.shape, hshape, List.length_map]
    -- the body is renamed, which captures nothing
    have hren : Renamed M leaves (ids.zip is) body r :=
      rename_renamed hM hq hfun hbody hint hcf hr
    refine ⟨hren.canonical, hren.integrand, ?_, ?_, fun c σ hc => ?_⟩
    -- the body is scalar, and so is the indexing
    · rw [hren.shape, hscalar, (attributes_index h).1]
    · refine hren.canonical.sorted.eq_of_mem_iff
        (sorted_unary (ha.free ▸ ha.canonical.sorted) h) fun x => ?_
      have haxes : ids.length = (ids.map fun i => (body.free.dim? i).getD 0).length := by
        rw [List.length_map]
      have himage := image_zip (x := x) hl.symm haxes hnodup
        (fun _ _ hmem => hbody.sorted.mem_of_zip hids hmem)
        fun _ hx _ hy hid => hbody.sorted.eq_of_id hx hy hid
      rw [hren.free, himage, ha.mem_free_index h, hshape, mem_free_unary happly]
      simp [UnaryOp.bound, UnaryOp.introduced]
    -- the only component of a scalar is the empty one
    · have hnil : c = [] := by
        rw [Expr.rank, (attributes_index h).1] at hc
        exact List.eq_nil_of_length_eq_zero hc
      -- the tensor at the positions of the indexing binds them in its body
      have htensor : (unary (.indexed is) a).value (M.withLeaves leaves) [] σ =
          body.value (M.withLeaves leaves) [] (σ.bind ids (is.map σ.resolve)) := by
        rw [value_unary_indexed, ← ha.value _ σ (by rw [List.length_map, (index_ok h).1]),
          value_unary_componentTensor]
      rw [hnil, htensor]
      refine hren.value [] σ _ (by rw [Expr.rank, hscalar]) fun i _ => ?_
      exact resolve_zip σ hl.symm

/-- **An indexed list tensor is the item that its leading index selects.** -/
theorem equivalent_item {items : List (Expr R)} (hM : M.Exact)
    (h : a.index is = .ok (unary (.indexed is) a)) (ha : Equivalent M leaves a (listTensor items))
    (hr : selectItem? items is = some (.ok r)) : Equivalent M leaves (unary (.indexed is) a) r := by
  obtain ⟨p, rest, item, -, hitem, happly⟩ := selectItem_built hr
  have hmem := List.mem_of_getElem? hitem
  obtain ⟨hshape, hfree⟩ := attributes_index h
  cases ha.canonical with
  | listTensor hci hstack =>
    obtain ⟨hshape', hfree'⟩ := attributes_selected hstack hr
    -- the item takes the indices that are left
    refine ⟨canonical_unary (hci item hmem) happly,
      integrand_unary (fun _ => ⟨rest, rfl⟩) (ha.integrand.items item hmem) happly,
      hshape'.trans hshape.symm, ?_, fun c σ hc => ?_⟩
    · rw [hfree', hfree, ha.free, ha.shape]
    -- The selection is a scalar: the only component to compare is the empty one.
    · have hnil : c = [] := by
        rw [Expr.rank, hshape] at hc
        exact List.eq_nil_of_length_eq_zero hc
      have hat : (is.map σ.resolve).length = a.rank := by
        rw [List.length_map, (index_ok h).1]
      rw [hnil, value_selected (hM.withLeaves leaves) hr, value_unary_indexed, ha.value _ σ hat]

end Reduction

end Expr

end WeakForm
