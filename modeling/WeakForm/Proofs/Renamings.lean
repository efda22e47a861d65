import WeakForm.Proofs.Integrands

/-!
# Renaming without capture

A renaming goes into the operand of an index sum or a component tensor with the bound
indices taken out of it. That keeps it from replacing what is bound, but not from
putting a bound index in: a free index that is replaced by an index of the same name as
the bound one is *captured*. Where that happens nowhere, renaming is substitution: the
free indices of the result are the images of those of the expression, and its value is
that of the expression at the positions which the replacements stand for.

* `CaptureFree` — no index that a renaming puts in is bound where it is put;
* `Renaming.Image`, `Renaming.Carries` — what becomes of free indices and of positions;
* `Carried`, `carried_unary`, `carried_binary` — shape and free indices of what is renamed;
* `Renamed`, `rename_renamed` — the result of a renaming that captures nothing;
* `rename_captured` — at a binder that captures an index, the image of the index is lost.
-/

namespace WeakForm

namespace Renaming

variable {ρ : Renaming} {free : FreeIndices} {ids : List IndexId} {i : IndexId} {x : FreeIndex}

/-- A free index that stands for one of the given free indices. -/
def Image (ρ : Renaming) (free : FreeIndices) (x : FreeIndex) : Prop :=
  ∃ y ∈ free, ρ.onIndex (.free y.id) = .free x.id ∧ y.dim = x.dim

/-- Positions `σ` give the replacements of free indices the positions that `τ` gives the
indices themselves. -/
def Carries (ρ : Renaming) (free : FreeIndices) (σ τ : Env) : Prop :=
  ∀ i, free.has i → σ.resolve (ρ.onIndex (.free i)) = τ i

/-- No replacement of the given free indices is bound by the operator. -/
def Avoids (ρ : Renaming) (free : FreeIndices) (bound : List IndexId) : Prop :=
  ∀ i, free.has i → i ∉ bound → ∀ j ∈ bound, ρ.find? i ≠ some (.free j)

/-- A bound index is not renamed inside. -/
theorem find?_without_of_mem (hi : i ∈ ids) : (ρ.without ids).find? i = none := by
  rw [find?, List.lookup_eq_none_iff]
  intro p hp
  have hp : p.1 ∉ ids := by
    have := (List.mem_filter.mp hp).2
    simpa using this
  have hne : i ≠ p.1 := by
    rintro rfl
    exact hp hi
  exact bne_iff_ne.mpr hne

/-- Any other index is renamed as outside. -/
theorem find?_without_of_not_mem (hi : i ∉ ids) : (ρ.without ids).find? i = ρ.find? i := by
  induction ρ with
  | nil => rfl
  | cons p ρ ih =>
    by_cases hp : p.1 ∈ ids
    · -- the pair is taken out, and it is not one of the index
      have hne : i ≠ p.1 := by
        rintro rfl
        exact hi hp
      have hout : without (p :: ρ) ids = without ρ ids := by
        simp [without, hp]
      rw [hout, ih, find?, find?, List.lookup_cons, beq_eq_false_iff_ne.mpr hne]
    · have hin : without (p :: ρ) ids = p :: without ρ ids := by
        simp [without, hp]
      rw [hin, find?, find?, List.lookup_cons, List.lookup_cons]
      by_cases heq : i = p.1
      · rw [heq, beq_self_eq_true]
      · rw [beq_eq_false_iff_ne.mpr heq]
        exact ih

theorem onIndex_without_of_mem (hi : i ∈ ids) : (ρ.without ids).onIndex (.free i) = .free i := by
  rw [onIndex, find?_without_of_mem hi, Option.getD_none]

theorem onIndex_without_of_not_mem (hi : i ∉ ids) :
    (ρ.without ids).onIndex (.free i) = ρ.onIndex (.free i) := by
  rw [onIndex, onIndex, find?_without_of_not_mem hi]

theorem onIndex_of_not_touches (h : ρ.touches free = false) (hi : free.has i) :
    ρ.onIndex (.free i) = .free i := by
  rw [onIndex, ρ.find?_eq_none h hi, Option.getD_none]

theorem without_nil (ρ : Renaming) : ρ.without [] = ρ := by
  simp [without]

/-- The renaming inside an operator is without what the operator binds. -/
theorem inside_eq (ρ : Renaming) (op : UnaryOp) : ρ.inside op = ρ.without op.bound := by
  cases op with
  | indexSum | componentTensor => rfl
  | math | abs | indexed | restricted | grad | referenceGrad | spatialDerivative | averaged
    | labelled => simp [inside, without, UnaryOp.bound]

/-- An index that is not bound is not replaced by a bound one. -/
theorem Avoids.onIndex_ne (h : ρ.Avoids free ids) (hi : free.has i) (hb : i ∉ ids) {j : IndexId}
    (hj : j ∈ ids) : ρ.onIndex (.free i) ≠ .free j := by
  intro heq
  rw [onIndex] at heq
  cases hfind : ρ.find? i with
  | none =>
    rw [hfind] at heq
    -- the name is not replaced, and it is no bound one
    cases heq
    exact hb hj
  | some k =>
    rw [hfind] at heq
    -- it is replaced, and avoidance excludes the bound names
    obtain rfl : k = .free j := heq
    exact h i hi hb j hj hfind

end Renaming

/-! ## Images under a binder -/

section Binder

variable {ρ : Renaming} {free free' : FreeIndices} {ids : List IndexId} {x : FreeIndex}

/-- Inside a binder, the images that are not bound are those of what is not bound. -/
theorem image_unbound (hav : ρ.Avoids free ids)
    (h : ∀ x, x ∈ free' ↔ (ρ.without ids).Image free x) :
    x ∈ free' ∧ x.id ∉ ids ↔
      ∃ y ∈ free, y.id ∉ ids ∧ ρ.onIndex (.free y.id) = .free x.id ∧ y.dim = x.dim := by
  rw [h]
  constructor
  -- an index that is not bound comes from one that is not
  · rintro ⟨⟨y, hy, heq, hdim⟩, hx⟩
    by_cases hb : y.id ∈ ids
    · rw [Renaming.onIndex_without_of_mem hb] at heq
      -- a bound index stays, and so it is bound outside as well
      have hid : y.id = x.id := Index.free.inj heq
      rw [hid] at hb
      exact absurd hb hx
    · rw [Renaming.onIndex_without_of_not_mem hb] at heq
      exact ⟨y, hy, hb, heq, hdim⟩
  · rintro ⟨y, hy, hb, heq, hdim⟩
    refine ⟨⟨y, hy, ?_, hdim⟩, fun hx => ?_⟩
    · rw [Renaming.onIndex_without_of_not_mem hb, heq]
    · have hi : free.has y.id := FreeIndices.has_iff.mpr ⟨_, hy⟩
      -- Avoidance: no name from outside is sent onto a bound one.
      exact hav.onIndex_ne hi hb hx heq

/-- A bound index is free in the operand with the dimension it had. -/
theorem image_bound (hav : ρ.Avoids free ids)
    (h : ∀ x, x ∈ free' ↔ (ρ.without ids).Image free x) (hx : x.id ∈ ids) :
    x ∈ free' ↔ x ∈ free := by
  rw [h]
  constructor
  · rintro ⟨y, hy, heq, hdim⟩
    by_cases hb : y.id ∈ ids
    · rw [Renaming.onIndex_without_of_mem hb] at heq
      have hid : y.id = x.id := Index.free.inj heq
      rwa [← FreeIndex.eq_of_id_of_dim hid hdim]
    · rw [Renaming.onIndex_without_of_not_mem hb] at heq
      have hi : free.has y.id := FreeIndices.has_iff.mpr ⟨_, hy⟩
      exact absurd heq (hav.onIndex_ne hi hb hx)
  -- a bound index stays itself
  · intro hmem
    exact ⟨x, hmem, Renaming.onIndex_without_of_mem hx, rfl⟩

end Binder

namespace Expr

/-- No index that the renaming puts in is bound where it is put. -/
inductive CaptureFree {R : Type} : Renaming → Expr R → Prop
  | leaf {ρ : Renaming} {t : Terminal R} : CaptureFree ρ (leaf t)
  | unary {ρ : Renaming} {op : UnaryOp} {a : Expr R} (h : ρ.Avoids a.free op.bound)
      (ha : CaptureFree (ρ.inside op) a) : CaptureFree ρ (unary op a)
  | binary {ρ : Renaming} {op : BinaryOp} {a b : Expr R} (ha : CaptureFree ρ a)
      (hb : CaptureFree ρ b) : CaptureFree ρ (binary op a b)
  | listTensor {ρ : Renaming} {items : List (Expr R)} (hi : ∀ item ∈ items, CaptureFree ρ item) :
      CaptureFree ρ (listTensor items)

/-! ## The result of a renaming -/

section Renamed

variable {R A : Type} [Scalar R] [Field A] {M : Model R A} {leaves : Expr R → A}
  {ρ : Renaming} {a a' b b' e r : Expr R}

/-- What a renaming without capture returns. -/
structure Renamed (M : Model R A) (leaves : Expr R → A) (ρ : Renaming) (e r : Expr R) : Prop where
  canonical : Canonical r
  integrand : Integrand r
  shape : r.shape = e.shape
  free : ∀ x, x ∈ r.free ↔ ρ.Image e.free x
  value : ∀ c σ τ, c.length = e.rank → ρ.Carries e.free σ τ →
    r.value (M.withLeaves leaves) c σ = e.value (M.withLeaves leaves) c τ

theorem Renamed.rank (h : Renamed M leaves ρ e r) : r.rank = e.rank :=
  congrArg List.length h.shape

/-- What a renaming makes of the shape and of the free indices. -/
structure Carried (ρ : Renaming) (e r : Expr R) : Prop where
  canonical : Canonical r
  shape : r.shape = e.shape
  free : ∀ x, x ∈ r.free ↔ ρ.Image e.free x

theorem Renamed.carried (h : Renamed M leaves ρ e r) : Carried ρ e r :=
  ⟨h.canonical, h.shape, h.free⟩

/-- An expression is carried over by a renaming that touches none of its indices. -/
theorem carried_self (hcan : Canonical e) (h : ρ.touches e.free = false) : Carried ρ e e where
  canonical := hcan
  shape := rfl
  free x := by
    have hon : ∀ y ∈ e.free, ρ.onIndex (.free y.id) = .free y.id := fun y hy =>
      Renaming.onIndex_of_not_touches h (FreeIndices.has_iff.mpr ⟨_, hy⟩)
    constructor
    · intro hx
      exact ⟨x, hx, hon x hx, rfl⟩
    · rintro ⟨y, hy, heq, hdim⟩
      have hid : y.id = x.id := Index.free.inj ((hon y hy).symm.trans heq)
      rwa [← FreeIndex.eq_of_id_of_dim hid hdim]

/-- An expression of which no free index is replaced stays as it is. -/
theorem renamed_self (hcan : Canonical e) (hint : Integrand e) (h : ρ.touches e.free = false) :
    Renamed M leaves ρ e e where
  canonical := hcan
  integrand := hint
  shape := rfl
  free := (carried_self hcan h).free
  value c σ τ hc hcarry := by
    refine value_congr hcan hint (fun i hi => ?_) hc
    have := hcarry i hi
    rwa [Renaming.onIndex_of_not_touches h hi] at this

/-- Where no free index is touched, the expression stays as it is. -/
theorem renamed_of_not_touches (hcan : Canonical e) (hint : Integrand e)
    (ht : ¬ρ.touches e.free) (h : rename ρ e = .ok r) : Renamed M leaves ρ e r := by
  rw [rename.eq_def, if_neg ht] at h
  cases h
  exact renamed_self hcan hint (by simpa using ht)

omit [Scalar R] in
/-- The renamed indices are those that the renaming has an image for. -/
theorem mem_onFree {free : FreeIndices} {x : FreeIndex} : x ∈ ρ.onFree free ↔ ρ.Image free x := by
  rw [Renaming.onFree, FreeIndices.mem_sort, List.mem_filterMap]
  constructor
  · rintro ⟨y, hy, heq⟩
    refine ⟨y, hy, ?_⟩
    split at heq
    · next i hi =>
      cases heq
      exact ⟨hi, rfl⟩
    · cases heq
  · rintro ⟨y, hy, heq, hdim⟩
    refine ⟨y, hy, ?_⟩
    rw [heq]
    exact congrArg some (FreeIndex.eq_of_id_of_dim rfl hdim)

/-- A zero is carried over to the zero of the renamed indices. -/
theorem carried_zero {shape : List Nat} {free : FreeIndices} (h : (ρ.onFree free).Sorted) :
    Carried ρ (leaf (.zero shape free) : Expr R) (leaf (.zero shape (ρ.onFree free))) where
  canonical := .leaf h
  shape := by
    rw [shape_leaf, shape_leaf]
    rfl
  free x := by
    rw [free_leaf, free_leaf]
    exact mem_onFree

/-- The renaming of a terminal. -/
theorem renamed_leaf {t : Terminal R} (hcan : Canonical (leaf t)) (h : ρ.touches (leaf t).free)
    (hr : rename ρ (leaf t) = .ok r) : Renamed M leaves ρ (leaf t) r := by
  rw [free_leaf] at h
  -- of terminals only zero has free indices
  cases t with
  | argument | coefficient | geometry | literal => cases h
  | zero shape free =>
    have hzero : zeroOver shape (ρ.onFree free) = .ok r := by
      rw [rename.eq_def, free_leaf, if_pos h] at hr
      exact hr
    unfold zeroOver at hzero
    split at hzero
    swap
    · cases hzero
    next hsorted =>
    cases hzero
    have hcarried : Carried ρ (leaf (.zero shape free) : Expr R) _ := carried_zero hsorted
    exact ⟨hcarried.canonical, integrand_leaf _, hcarried.shape, hcarried.free,
      fun _ _ _ _ _ => rfl⟩

/-! ## Renaming a node -/

omit [Scalar R] in
/-- Renaming the entries of an operator changes nothing that it binds. -/
theorem bound_onOp (ρ : Renaming) (op : UnaryOp) : (ρ.onOp op).bound = op.bound := by
  cases op <;> rfl

omit [Scalar R] in
/-- Renaming the entries keeps an operator one that computes. -/
theorem computes_onOp {op : UnaryOp} (h : op.Computes) : (ρ.onOp op).Computes := by
  intro hm
  cases op with
  | indexed is => exact ⟨_, rfl⟩
  | math | abs | indexSum | componentTensor | restricted | grad | referenceGrad
    | spatialDerivative | averaged | labelled =>
    obtain ⟨is, heq⟩ := h hm
    cases heq

omit [Scalar R] in
/-- The shape of a node over the renamed operand. -/
theorem shape_onOp {op : UnaryOp} (hshape : a'.shape = a.shape)
    (hdim : ∀ i ∈ op.bound, a'.free.dim? i = a.free.dim? i)
    (hdomain : op.Computes ∨ a'.domain? = a.domain?) :
    (ρ.onOp op).shape a'.signature = op.shape a.signature := by
  cases op with
  | math | indexed => rfl
  | abs | indexSum | restricted | spatialDerivative | averaged | labelled => exact hshape
  | componentTensor ids =>
    refine List.map_congr_left fun i hi => ?_
    exact congrArg (fun d : Option Nat => d.getD 0) (hdim i hi)
  | grad | referenceGrad =>
    rcases hdomain with h | h
    -- a gradient is a modifier, so its operand keeps the domain
    · obtain ⟨is, heq⟩ := h rfl
      cases heq
    · have hsig : a'.signature.domain? = a.signature.domain? := h
      have hsh : a'.signature.shape = a.signature.shape := hshape
      simp only [Renaming.onOp, UnaryOp.shape, Signature.gdim, Signature.tdim, hsig, hsh]

omit [Scalar R] in
/-- The indices that a renamed operator adds are the images of those that it added. -/
theorem mem_introduced_onOp {op : UnaryOp} (hshape : a'.shape = a.shape)
    (hdomain : op.Computes ∨ a'.domain? = a.domain?) {x : FreeIndex} :
    x ∈ (ρ.onOp op).introduced a'.signature ↔ ρ.Image (op.introduced a.signature) x := by
  cases op with
  -- the free entries are renamed one by one, with the same dimensions
  | indexed is =>
    have hsh : a'.signature.shape = a.signature.shape := hshape
    show x ∈ Signature.indexedFree (is.map ρ.onIndex) a'.signature.shape ↔
      ρ.Image (Signature.indexedFree is a.signature.shape) x
    rw [hsh, Signature.mem_indexedFree, List.zip_map_left, List.mem_map]
    constructor
    · rintro ⟨⟨j, d⟩, hmem, heq⟩
      obtain ⟨hj, rfl⟩ := Prod.mk.inj heq
      cases j with
      | fixed p => cases hj
      | free i => exact ⟨⟨i, x.dim⟩, Signature.mem_indexedFree.mpr hmem, hj, rfl⟩
    · rintro ⟨y, hy, heq, hdim⟩
      refine ⟨_, Signature.mem_indexedFree.mp hy, ?_⟩
      exact Prod.ext heq hdim
  -- so are the free directions, of the same domain
  | spatialDerivative is =>
    have hgdim : a'.signature.gdim = a.signature.gdim := by
      rcases hdomain with h | h
      · obtain ⟨is, heq⟩ := h rfl
        cases heq
      · have hsig : a'.signature.domain? = a.signature.domain? := h
        rw [Signature.gdim, Signature.gdim, hsig]
    show x ∈ Signature.directionFree (is.map ρ.onIndex) a'.signature.gdim ↔
      ρ.Image (Signature.directionFree is a.signature.gdim) x
    rw [hgdim, Signature.mem_directionFree, List.mem_map]
    constructor
    · rintro ⟨⟨j, hmem, heq⟩, hdim⟩
      cases j with
      | fixed p => cases heq
      | free i => exact ⟨⟨i, x.dim⟩, Signature.mem_directionFree.mpr ⟨hmem, hdim⟩, heq, rfl⟩
    · rintro ⟨y, hy, heq, hdim⟩
      obtain ⟨hmem, hy⟩ := Signature.mem_directionFree.mp hy
      exact ⟨⟨_, hmem, heq⟩, hdim.symm.trans hy⟩
  -- no other operator introduces indices
  | math | abs | indexSum | componentTensor | restricted | grad | referenceGrad | averaged
    | labelled =>
    constructor
    · intro hx
      cases hx
    · rintro ⟨y, hy, -⟩
      cases hy

/-- Positions are carried into a binder that captures nothing. -/
theorem carries_bind {op : UnaryOp} {σ τ : Env} {positions : List Nat}
    (happly : op.apply a = .ok e) (h : ρ.Carries e.free σ τ) (hav : ρ.Avoids a.free op.bound)
    (hl : positions.length = op.bound.length) :
    (ρ.without op.bound).Carries a.free (σ.bind op.bound positions)
      (τ.bind op.bound positions) := by
  intro i hi
  -- A bound name is read from the positions, any other through the renaming from outside.
  by_cases hb : i ∈ op.bound
  · rw [Renaming.onIndex_without_of_mem hb]
    exact Env.bind_of_mem hl hb
  · have hcarry := h i (has_of_operand happly hi hb)
    rw [Renaming.onIndex_without_of_not_mem hb, Env.bind_of_not_mem hb, ← hcarry]
    cases hon : ρ.onIndex (.free i) with
    | fixed p => rfl
    | free j =>
      have hj : j ∉ op.bound := fun hj => hav.onIndex_ne hi hb hj hon
      exact Env.bind_of_not_mem hj

/-- An operator is carried over with its operand. -/
theorem carried_unary {op : UnaryOp} (hcan : Canonical a)
    (happly : op.apply a = .ok (unary op a)) (hdomain : op.Computes ∨ a'.domain? = a.domain?)
    (hav : ρ.Avoids a.free op.bound) (ha : Carried (ρ.without op.bound) a a')
    (hr : (ρ.onOp op).apply a' = .ok r) : Carried ρ (unary op a) r := by
  have hdim : ∀ i ∈ op.bound, a'.free.dim? i = a.free.dim? i := fun i hi =>
    ha.canonical.sorted.dim?_congr hcan.sorted fun d => image_bound hav ha.free hi
  refine ⟨canonical_unary ha.canonical hr, ?_, fun x => ?_⟩
  · rw [(attributes_unary hr).1, shape_unary, shape_onOp ha.shape hdim hdomain]
  · rw [mem_free_unary hr, bound_onOp, image_unbound hav ha.free,
      mem_introduced_onOp ha.shape hdomain]
    constructor
    -- free indices of the new operand, and those of the entries
    · rintro (⟨y, hy, hb, heq⟩ | ⟨y, hy, heq⟩)
      · exact ⟨y, (mem_free_unary happly).mpr (.inl ⟨hy, hb⟩), heq⟩
      · exact ⟨y, (mem_free_unary happly).mpr (.inr hy), heq⟩
    · rintro ⟨y, hy, heq⟩
      rcases (mem_free_unary happly).mp hy with ⟨hy, hb⟩ | hy
      · exact .inl ⟨y, hy, hb, heq⟩
      · exact .inr ⟨y, hy, heq⟩

/-- The entries of an operator resolve to the same positions after renaming. -/
theorem entries_carried {op : UnaryOp} (happly : op.apply a = .ok (unary op a))
    (hcarry : ρ.Carries (unary op a).free σ τ) :
    (op.entries.map ρ.onIndex).map σ.resolve = op.entries.map τ.resolve := by
  rw [List.map_map]
  refine List.map_congr_left fun j hj => ?_
  cases j with
  | fixed p => rfl
  | free i => exact hcarry i (has_of_entry happly hj)

/-- The renaming of an operator that computes with its operand's values. -/
theorem renamed_computes {op : UnaryOp} (hM : M.Exact) (hfun : M.ExactFunctions)
    (hop : op.Computes) (hcan : Canonical a) (happly : op.apply a = .ok (unary op a))
    (hav : ρ.Avoids a.free op.bound) (ha : Renamed M leaves (ρ.without op.bound) a a')
    (hr : (ρ.onOp op).apply a' = .ok r) : Renamed M leaves ρ (unary op a) r := by
  obtain ⟨hcanonical, hshape, hfree⟩ := carried_unary hcan happly (.inl hop) hav ha.carried hr
  refine ⟨hcanonical, integrand_unary (computes_onOp hop) ha.integrand hr,
    hshape, hfree, fun c σ τ hc hcarry => ?_⟩
  have hcr : c.length = r.rank := by
    rw [hc, rank, rank, hshape]
  have hdim : ∀ i ∈ op.bound, a'.free.dim? i = a.free.dim? i := fun i hi =>
    ha.canonical.sorted.dim?_congr hcan.sorted fun d => image_bound hav ha.free hi
  -- both sides are the meaning of the operator on its operand
  rw [value_unary_apply (hM.withLeaves leaves) (hfun.withLeaves leaves) (computes_onOp hop) hr
    hcr, value_node hop, Renaming.onOp_eq]
  refine meaning_mapIndices hop happly hc hdim (entries_carried happly hcarry)
    fun c' positions hc' hl => ?_
  exact ha.value c' _ _ hc' (carries_bind happly hcarry hav hl)

/-- The renaming of a modifier over a chain: it goes index by index. -/
theorem renamed_modifier {op : UnaryOp} (hmod : op.isModifier) (hm : a.isModifiedTerminal)
    (hcan : Canonical a) (happly : op.apply a = .ok (unary op a))
    (hav : ρ.Avoids a.free op.bound) (hra : rename (ρ.inside op) a = .ok a')
    (ha : Renamed M leaves (ρ.without op.bound) a a') (hr : (ρ.onOp op).apply a' = .ok r)
    (hrename : rename ρ (unary op a) = .ok r) : Renamed M leaves ρ (unary op a) r := by
  -- a chain under a modifier is no constant
  have hz := operand_not_zero hmod happly
  have hchain : a' = a.mapIndices (ρ.inside op).onIndex := rename_chain hcan hm hz hra
  have hdomain : op.Computes ∨ a'.domain? = a.domain? := by
    right
    rw [hchain, domain?_mapIndices]
  obtain ⟨hcanonical, hshape, hfree⟩ := carried_unary hcan happly hdomain hav ha.carried hr
  refine ⟨hcanonical, ?_, hshape, hfree, fun c σ τ hc hcarry => ?_⟩
  · have hm' : a'.isModifiedTerminal := by
      rw [hchain, isModifiedTerminal_mapIndices, hm]
    have hmod' : (ρ.onOp op).isModifier := by
      cases op <;> first | rfl | cases hmod
    exact .chain (chain_unary hmod' hm' hr)
  -- the whole chain has its indices renamed
  · have hm' : (unary op a).isModifiedTerminal := by
      rw [isModifiedTerminal, hmod, hm, Bool.and_self]
    have hwhole := rename_chain (.unary hcan happly) hm' rfl hrename
    have hresolve : ∀ j, σ.resolve (ρ.onIndex j) =
        Env.resolve (fun i => σ.resolve (ρ.onIndex (.free i))) j := by
      intro j
      cases j with
      | fixed p => rfl
      | free i => rfl
    rw [hwhole, value_mapIndices hm' hresolve]
    exact value_congr (.unary hcan happly) (.chain hm') (fun i hi => hcarry i hi) hc

/-- A binary operator is carried over with its operands. -/
theorem carried_binary {op : BinaryOp} (hsa : a.free.Sorted) (hsb : b.free.Sorted)
    (happly : op.apply a b = .ok (binary op a b)) (ha : Carried ρ a a') (hb : Carried ρ b b')
    (hr : op.apply a' b' = .ok r) : Carried ρ (binary op a b) r := by
  have hmem : ∀ x, x ∈ (binary op a b).free ↔ x ∈ a.free ∨ x ∈ b.free := fun x =>
    mem_free_binary hsa hsb happly
  refine ⟨canonical_binary ha.canonical hb.canonical hr, ?_, fun x => ?_⟩
  · -- the shape is that of the operands, which keep theirs
    have hsa' : a'.signature.shape = a.signature.shape := ha.shape
    have hsb' : b'.signature.shape = b.signature.shape := hb.shape
    rw [(attributes_binary hr).1, shape_binary]
    cases op with
    | sum | division => exact hsa'
    | product => simp only [BinaryOp.shape, hsa', hsb']
    | power => rfl
  · rw [mem_free_binary ha.canonical.sorted hb.canonical.sorted hr, ha.free, hb.free]
    constructor
    · rintro (⟨y, hy, heq⟩ | ⟨y, hy, heq⟩)
      · exact ⟨y, (hmem y).mpr (.inl hy), heq⟩
      · exact ⟨y, (hmem y).mpr (.inr hy), heq⟩
    · rintro ⟨y, hy, heq⟩
      exact ((hmem y).mp hy).imp (fun hy => ⟨y, hy, heq⟩) fun hy => ⟨y, hy, heq⟩

/-- Positions are carried into the operands. -/
theorem carries_operands {op : BinaryOp} {σ τ : Env} (hsa : a.free.Sorted) (hsb : b.free.Sorted)
    (happly : op.apply a b = .ok e) (h : ρ.Carries e.free σ τ) :
    ρ.Carries a.free σ τ ∧ ρ.Carries b.free σ τ := by
  constructor
  · exact fun i hi => h i (has_of_left hsa hsb happly hi)
  · exact fun i hi => h i (has_of_right hsa hsb happly hi)

/-- A binary operator has the value of the one on the renamed operands. -/
theorem renamed_binary {op : BinaryOp} (hM : M.Exact) (hq : M.ExactQuotients)
    (hfun : M.ExactFunctions) (hsa : a.free.Sorted) (hsb : b.free.Sorted)
    (happly : op.apply a b = .ok (binary op a b)) (ha : Renamed M leaves ρ a a')
    (hb : Renamed M leaves ρ b b') (hr : op.apply a' b' = .ok r) :
    Renamed M leaves ρ (binary op a b) r := by
  obtain ⟨hcanonical, hshape, hfree⟩ := carried_binary hsa hsb happly ha.carried hb.carried hr
  refine ⟨hcanonical, integrand_binary ha.integrand hb.integrand hr, hshape, hfree,
    fun c σ τ hc hcarry => ?_⟩
  have hcr : c.length = r.rank := by
    rw [hc, rank, rank, hshape]
  -- both operands read indices of the node only
  obtain ⟨hca, hcb⟩ := carries_operands hsa hsb happly hcarry
  rw [value_binary_apply (hM.withLeaves leaves) (hq.withLeaves leaves) (hfun.withLeaves leaves)
    hr hcr, value_node₂, ha.rank, hb.rank]
  exact meaning_congr₂ happly hc (fun c' hc' => ha.value c' σ τ hc' hca)
    fun c' hc' => hb.value c' σ τ hc' hcb

/-- A list has the value of the list of renamed items. -/
theorem renamed_listTensor {items items' : List (Expr R)} (hM : M.Exact)
    (happly : stack items = .ok (listTensor items))
    (hi : List.Forall₂ (Renamed M leaves ρ) items items') (hr : stack items' = .ok r) :
    Renamed M leaves ρ (listTensor items) r := by
  -- everything is carried over item by item
  have hcan : ∀ item' ∈ items', Canonical item' := fun item' hm => by
    obtain ⟨item, -, h⟩ := exists_left_of_mem hi hm
    exact h.canonical
  have hint : ∀ item' ∈ items', Integrand item' := fun item' hm => by
    obtain ⟨item, -, h⟩ := exists_left_of_mem hi hm
    exact h.integrand
  obtain ⟨first, rest, rfl, -, -⟩ := stack_built happly
  obtain ⟨first', rest', hfirst, -, rfl⟩ := List.forall₂_cons_left_iff.mp hi
  obtain ⟨hs, hf⟩ := attributes_stack happly
  obtain ⟨hs', hf'⟩ := attributes_stack hr
  refine ⟨canonical_stack hcan hr, integrand_stack hint hr, ?_, fun x => ?_,
    fun c σ τ hc hcarry => ?_⟩
  -- the shape adds an axis to that of the first item
  · rw [hs, hs', hi.length_eq, hfirst.shape]
  · rw [hf', hf]
    exact hfirst.free x
  -- an item is chosen by the component, and items are renamed
  · refine value_stack_congr (hM.withLeaves leaves) happly hr ?_ hc
    refine forall₂_imp_of_mem hi fun item hmem item' hitem c' hc' => ?_
    obtain ⟨-, hfree⟩ := attributes_item happly hmem
    exact hitem.value c' σ τ hc' fun i hfi => hcarry i (by rwa [hfree])

/-- **Renaming without capture is substitution.** -/
theorem rename_renamed (hM : M.Exact) (hq : M.ExactQuotients) (hfun : M.ExactFunctions)
    (hcan : Canonical e) (hint : Integrand e) (hcf : CaptureFree ρ e)
    (h : rename ρ e = .ok r) : Renamed M leaves ρ e r := by
  induction hcan generalizing ρ r with
  | @leaf t ht =>
    -- where no free index is touched, renaming does nothing
    by_cases htouch : ρ.touches (leaf t : Expr R).free
    · exact renamed_leaf (.leaf ht) htouch h
    · exact renamed_of_not_touches (.leaf ht) hint htouch h
  | @unary op a hcan happly ih =>
    by_cases htouch : ρ.touches (unary op a).free
    · have hr := h
      rw [rename.eq_def, if_pos htouch] at hr
      obtain ⟨a', ha, hr⟩ := bind_eq_ok.mp hr
      obtain ⟨hinta, hop⟩ := hint.operand
      cases hcf with
      | unary hav hcf =>
        have hren := ih hinta hcf ha
        rw [Renaming.inside_eq] at hren
        -- operators that compute values, and modifiers
        rcases hop with hop | ⟨hmod, hm⟩
        · exact renamed_computes hM hfun hop hcan happly hav hren hr
        · exact renamed_modifier hmod hm hcan happly hav ha hren hr h
    · exact renamed_of_not_touches (.unary hcan happly) hint htouch h
  | @binary op a b hca hcb happly iha ihb =>
    by_cases htouch : ρ.touches (binary op a b).free
    · rw [rename.eq_def, if_pos htouch] at h
      obtain ⟨a', ha, h⟩ := bind_eq_ok.mp h
      obtain ⟨b', hb, h⟩ := bind_eq_ok.mp h
      obtain ⟨hia, hib⟩ := hint.operands
      cases hcf with
      | binary hcfa hcfb =>
        exact renamed_binary hM hq hfun hca.sorted hcb.sorted happly (iha hia hcfa ha)
          (ihb hib hcfb hb) h
    · exact renamed_of_not_touches (.binary hca hcb happly) hint htouch h
  | @listTensor items hci happly ih =>
    by_cases htouch : ρ.touches (listTensor items).free
    · rw [rename.eq_def, if_pos htouch] at h
      obtain ⟨items', hitems, h⟩ := bind_eq_ok.mp h
      -- items are renamed one by one
      rw [renameAll_eq_mapM, mapM_eq_ok] at hitems
      cases hcf with
      | listTensor hcf =>
        refine renamed_listTensor hM happly (forall₂_imp_of_mem hitems fun item hm item' hr => ?_) h
        exact ih item hm (hint.items item hm) (hcf item hm) hr
    · exact renamed_of_not_touches (.listTensor hci happly) hint htouch h

/-- **A binder that captures an index loses it.** The index is one that the renaming puts
in for a free index, and it is not free in the result. -/
theorem rename_captured {op : UnaryOp} {i j : IndexId} (happly : op.apply a = .ok (unary op a))
    (hi : a.free.has i) (hb : i ∉ op.bound) (hfind : ρ.find? i = some (.free j))
    (hj : j ∈ op.bound) (h : rename ρ (unary op a) = .ok r) :
    (∃ d, ρ.Image (unary op a).free ⟨j, d⟩) ∧ r.free.has j = false := by
  obtain ⟨d, hd⟩ := FreeIndices.has_iff.mp hi
  have hmem : ⟨i, d⟩ ∈ (unary op a).free := (mem_free_unary happly).mpr (.inl ⟨hd, hb⟩)
  -- the free index outside is replaced by the bound one
  have hon : ρ.onIndex (.free i) = .free j := by
    rw [Renaming.onIndex, hfind, Option.getD_some]
  refine ⟨⟨d, ⟨i, d⟩, hmem, hon, rfl⟩, FreeIndices.not_has_iff.mpr fun d' hx => ?_⟩
  have htouch : ρ.touches (unary op a).free :=
    List.any_eq_true.mpr ⟨_, hmem, by rw [hfind]; rfl⟩
  rw [rename.eq_def, if_pos htouch] at h
  obtain ⟨a', -, hr⟩ := bind_eq_ok.mp h
  -- what a binder adds is nothing, and what it passes on is not bound
  have hempty : (ρ.onOp op).introduced a'.signature = [] := by
    cases op <;> first | rfl | cases hj
  rw [mem_free_unary hr, bound_onOp, hempty] at hx
  rcases hx with ⟨-, hx⟩ | hx
  · exact hx hj
  · cases hx

end Renamed

end Expr

end WeakForm
