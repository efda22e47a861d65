import WeakForm.Proofs.Renamings

/-!
# Renamings that pass the checks

The constructors check what they are given, and a renaming can make a check fail: it can
put in a position beyond the range of its index, and it can make two free indices of a node
one. A renaming that *fits* the free indices of an expression does neither, and then each
operator is built over the renamed operands, but for a divisor that becomes zero and for an
absolute value of a literal that has none.

* `Renaming.Fits` — positions are in range, and different indices stay different;
* `Fits.inside` — a renaming that captures nothing fits inside a binder;
* `exists_apply_renamed`, `exists_apply_renamed₂` — the node over renamed operands;
* `exists_rename_chain` — a chain is always renamed.
-/

namespace WeakForm

/-- Indices that are replaced by positions get positions in their range, and different ones
are not replaced by one free index. -/
structure Renaming.Fits (ρ : Renaming) (free : FreeIndices) : Prop where
  bounded : ∀ y ∈ free, ∀ p, ρ.onIndex (.free y.id) = .fixed p → p < y.dim
  apart : ∀ x ∈ free, ∀ y ∈ free, ∀ k, ρ.onIndex (.free x.id) = .free k →
    ρ.onIndex (.free y.id) = .free k → x.id = y.id

namespace Renaming

variable {ρ : Renaming} {free a b a' b' : FreeIndices}

theorem avoids_nil : ρ.Avoids free [] :=
  fun _ _ _ _ hj => nomatch hj

theorem Fits.mono (h : ρ.Fits free) (hsub : ∀ x ∈ a, x ∈ free) : ρ.Fits a where
  bounded y hy := h.bounded y (hsub y hy)
  apart x hx y hy := h.apart x (hsub x hx) y (hsub y hy)

/-- The renamed indices of a sorted list are sorted. -/
theorem Fits.sorted_onFree (h : ρ.Fits free) (hs : free.Sorted) : (ρ.onFree free).Sorted := by
  refine FreeIndices.sorted_sort ?_
  rw [List.pairwise_filterMap]
  refine hs.imp_of_mem fun {x y} hx hy hlt x' hx' y' hy' hid => ?_
  split at hx'
  swap
  · cases hx'
  next k hk =>
  split at hy'
  swap
  · cases hy'
  next l hl =>
  cases hx'
  cases hy'
  obtain rfl : k = l := hid
  -- two indices with one image are one index
  exact Nat.ne_of_lt hlt (h.apart x hx y hy k hk hl)

/-- Indices of the two operands that become one were one, of one dimension. -/
theorem Fits.compatible (h : ρ.Fits free) (hs : free.Sorted) (hasub : ∀ x ∈ a, x ∈ free)
    (hbsub : ∀ x ∈ b, x ∈ free) (ha : ∀ x, x ∈ a' ↔ ρ.Image a x)
    (hb : ∀ x, x ∈ b' ↔ ρ.Image b x) : FreeIndices.Compatible a' b' := by
  intro x hx y hy hid
  obtain ⟨x₀, hx₀, hxid, hxdim⟩ := (ha x).mp hx
  obtain ⟨y₀, hy₀, hyid, hydim⟩ := (hb y).mp hy
  rw [← hid] at hyid
  have hsame := h.apart x₀ (hasub _ hx₀) y₀ (hbsub _ hy₀) x.id hxid hyid
  obtain rfl := hs.eq_of_id (hasub _ hx₀) (hbsub _ hy₀) hsame
  exact hxdim.symm.trans hydim

/-- A renaming that captures nothing fits inside a binder. -/
theorem Fits.inside {R : Type} [Scalar R] {e r : Expr R} {op : UnaryOp} (h : ρ.Fits r.free)
    (happly : op.apply e = .ok r) (hav : ρ.Avoids e.free op.bound) :
    (ρ.without op.bound).Fits e.free where
  bounded y hy p hp := by
    by_cases hb : y.id ∈ op.bound
    -- a bound index is not renamed at all
    · rw [Renaming.onIndex_without_of_mem hb] at hp
      cases hp
    · rw [Renaming.onIndex_without_of_not_mem hb] at hp
      exact h.bounded y ((Expr.mem_free_unary happly).mpr (.inl ⟨hy, hb⟩)) p hp
  apart x hx y hy k hxk hyk := by
    have hmem : ∀ z ∈ e.free, z.id ∉ op.bound → z ∈ r.free := fun z hz hb =>
      (Expr.mem_free_unary happly).mpr (.inl ⟨hz, hb⟩)
    by_cases hbx : x.id ∈ op.bound
    all_goals by_cases hby : y.id ∈ op.bound
    all_goals simp only [hbx, hby, Renaming.onIndex_without_of_mem,
      Renaming.onIndex_without_of_not_mem, not_false_eq_true] at hxk hyk
    -- both stay as they are, or one does and the other becomes something else, or both are renamed
    · exact (Index.free.inj hxk).trans (Index.free.inj hyk).symm
    · rw [← hxk] at hyk
      exact absurd hyk (hav.onIndex_ne (FreeIndices.has_of_mem hy) hby hbx)
    · rw [← hyk] at hxk
      exact absurd hxk (hav.onIndex_ne (FreeIndices.has_of_mem hx) hbx hby)
    · exact h.apart x (hmem x hx hbx) y (hmem y hy hby) k hxk hyk

end Renaming

namespace Expr

variable {R : Type} [Scalar R] {ρ : Renaming} {a a' b b' e r : Expr R}

/-! ## Over the renamed operand -/

/-- Entries that are new to an operand stay so. -/
theorem fresh_renamed {op : UnaryOp} (happly : op.apply a = .ok r) (hbound : op.bound = [])
    (hnew : ∀ i, .free i ∈ op.entries → a.free.has i = false) (hfit : ρ.Fits r.free)
    (ha : ∀ x, x ∈ a'.free ↔ ρ.Image a.free x) :
    ∀ k, .free k ∈ op.entries.map ρ.onIndex → a'.free.has k = false := by
  intro k hk
  obtain ⟨j, hj, hjk⟩ := List.mem_map.mp hk
  cases j with
  | fixed p => cases hjk
  -- a fixed position is no new index
  | free i =>
    refine FreeIndices.not_has_iff.mpr fun d hd => ?_
    -- otherwise the entry and an index of the operand would become one
    obtain ⟨y, hy, hyk, -⟩ := (ha _).mp hd
    obtain ⟨d', hi⟩ := FreeIndices.has_iff.mp (has_of_entry happly hj)
    have hy' : y ∈ r.free := (mem_free_unary happly).mpr (.inl ⟨hy, by simp [hbound]⟩)
    have hid : y.id = i := hfit.apart y hy' _ hi k hyk hjk
    have hold : a.free.has y.id := FreeIndices.has_of_mem hy
    rw [hid, hnew i hj] at hold
    cases hold

/-- The indices of an indexing pass the checks after renaming. -/
theorem indicesOk_renamed {is : List Index}
    (happly : UnaryOp.apply (.indexed is) a = .ok (unary (.indexed is) a))
    (hfit : ρ.Fits (unary (.indexed is) a).free) (ha : Carried ρ a a') :
    IndicesOk a' (is.map ρ.onIndex) a'.shape := by
  obtain ⟨hl, hok⟩ := index_ok happly
  refine ⟨?_, fresh_renamed happly rfl hok.fresh hfit ha.free, fun p d hmem => ?_⟩
  · -- entries with one image were one entry
    refine List.pairwise_map.mpr (hok.distinct.imp_of_mem fun {j k} hj hk hne i hi hki => ?_)
    cases j with
    | fixed p => cases hi
    | free j =>
    cases k with
    | fixed p => cases hki
    | free k =>
    obtain ⟨d, hd⟩ := FreeIndices.has_iff.mp (has_of_entry happly hj)
    obtain ⟨d', hd'⟩ := FreeIndices.has_iff.mp (has_of_entry happly hk)
    have hid : j = k := hfit.apart _ hd _ hd' i hi hki
    rw [hid] at hne
    exact hne k rfl rfl
  · rw [ha.shape, List.zip_map_left, List.mem_map] at hmem
    -- an entry that gets fixed lies on its axis
    obtain ⟨⟨j, d'⟩, hmem, heq⟩ := hmem
    obtain ⟨hj, rfl⟩ := Prod.mk.inj heq
    cases j with
    | fixed q =>
      cases hj
      exact hok.bounded _ _ hmem
    | free i =>
      refine hfit.bounded ⟨i, d'⟩ ?_ p hj
      exact (mem_free_unary happly).mpr (.inr (Signature.mem_indexedFree.mpr hmem))

/-- The directions of a derivative pass the checks after renaming. -/
theorem directions_renamed {is : List Index} {d : Domain}
    (happly : UnaryOp.apply (.spatialDerivative is) a = .ok (unary (.spatialDerivative is) a))
    (hd : a.domain? = some d) (hcheck : checkDirections a d.gdim is = .ok ())
    (hfit : ρ.Fits (unary (.spatialDerivative is) a).free)
    (ha : ∀ x, x ∈ a'.free ↔ ρ.Image a.free x) :
    checkDirections a' d.gdim (is.map ρ.onIndex) = .ok () := by
  refine checkDirections_eq_ok.mpr ⟨fun p hp => ?_,
    fresh_renamed happly rfl (checkDirections_ok hcheck) hfit ha⟩
  obtain ⟨j, hj, hjp⟩ := List.mem_map.mp hp
  cases j with
  | fixed q =>
    cases hjp
    exact checkDirections_fixed hcheck _ hj
  | free i =>
    -- a free direction that gets fixed lies in the space, as the renaming fits the result
    have hgdim : a.signature.gdim = d.gdim := by
      rw [Signature.gdim, show a.signature.domain? = some d from hd]
      rfl
    refine hfit.bounded ⟨i, d.gdim⟩ ((mem_free_unary happly).mpr (.inr ?_)) p hjp
    exact Signature.mem_directionFree.mpr ⟨hj, hgdim.symm⟩

/-- **An operator is built over the renamed operand**, but for an absolute value without
value. -/
theorem exists_apply_renamed {op : UnaryOp} (hop : ∀ ids, op ≠ .componentTensor ids)
    (happly : op.apply a = .ok (unary op a)) (hav : ρ.Avoids a.free op.bound)
    (hfit : ρ.Fits (unary op a).free) (ha : Carried (ρ.without op.bound) a a')
    (hdomain : op.Computes ∨ a'.domain? = a.domain?)
    (habs : op = .abs → ∃ r, a'.abs = .ok r) : ∃ r, (ρ.onOp op).apply a' = .ok r := by
  have hkept : op.bound = [] → Carried ρ a a' := fun hb => by
    rwa [hb, Renaming.without_nil] at ha
  cases op with
  | math f => exact exists_math f (ha.shape.trans (math_built happly).1)
  | abs => exact habs rfl
  | indexSum i =>
    -- the index that is summed over stays free in the operand
    obtain ⟨d, hd⟩ := FreeIndices.has_iff.mp (sumOver_built happly).1
    have hi : (⟨i, d⟩ : FreeIndex).id ∈ (UnaryOp.indexSum i).bound := List.mem_singleton.mpr rfl
    exact exists_sumOver (FreeIndices.has_of_mem ((image_bound hav ha.free hi).mpr hd))
  | indexed is =>
    have hok := indicesOk_renamed happly hfit (hkept rfl)
    have hl : (is.map ρ.onIndex).length = a'.rank := by
      rw [List.length_map, (index_ok happly).1, rank, rank, ha.shape]
    exact exists_index hl (hok.checkIndices hl)
  | componentTensor ids => exact absurd rfl (hop ids)
  | restricted | averaged | labelled => exact ⟨_, rfl⟩
  | grad =>
    obtain ⟨is, heq⟩ | hdomain := hdomain.imp_left fun h => h rfl
    · cases heq
    · exact exists_gradient (hdomain ▸ (gradient_built happly).1)
  | referenceGrad =>
    obtain ⟨is, heq⟩ | hdomain := hdomain.imp_left fun h => h rfl
    · cases heq
    · exact exists_referenceGradient (hdomain ▸ (referenceGradient_built happly).1)
  | spatialDerivative is =>
    obtain ⟨is, heq⟩ | hdomain := hdomain.imp_left fun h => h rfl
    · cases heq
    · obtain ⟨-, d, hd, hcheck, -⟩ := derivative_node happly
      exact exists_derivative (hdomain.trans hd)
        (directions_renamed happly hd hcheck hfit (hkept rfl).free)

/-! ## Over two renamed operands -/

/-- Operands with the same free indices still have the same ones once renamed. -/
theorem Carried.free_congr (ha : Carried ρ a a') (hb : Carried ρ b b') (h : a.free = b.free) :
    a'.free = b'.free := by
  refine ha.canonical.sorted.eq_of_mem_iff hb.canonical.sorted fun x => ?_
  rw [ha.free, hb.free, h]

/-- An operand without free indices gets none. -/
theorem Carried.free_nil (ha : Carried ρ a a') (h : a.free = []) : a'.free = [] := by
  refine List.eq_nil_iff_forall_not_mem.mpr fun x hx => ?_
  obtain ⟨y, hy, -⟩ := (ha.free x).mp hx
  rw [h] at hy
  cases hy

/-- **An operator is built over two renamed operands**, but for a divisor that is zero. -/
theorem exists_apply_renamed₂ {op : BinaryOp} (hca : Canonical a) (hcb : Canonical b)
    (happly : op.apply a b = .ok (binary op a b)) (hfit : ρ.Fits (binary op a b).free)
    (ha : Carried ρ a a') (hb : Carried ρ b b') (hz : op = .division → b'.isZero = false) :
    ∃ r, op.apply a' b' = .ok r := by
  have hmem : ∀ x, x ∈ (binary op a b).free ↔ x ∈ a.free ∨ x ∈ b.free := fun x =>
    mem_free_binary hca.sorted hcb.sorted happly
  -- renaming puts no index of one dimension in the place of another
  have hconf : a'.free.conflict? b'.free = none :=
    (hfit.compatible (Canonical.binary hca hcb happly).sorted (fun x hx => (hmem x).mpr (.inl hx))
      (fun x hx => (hmem x).mpr (.inr hx)) ha.free hb.free).conflict?
  cases op with
  | sum =>
    obtain ⟨hshape, hfree, -⟩ := add_built happly
    exact exists_add (ha.shape.trans (hshape.trans hb.shape.symm)) (ha.free_congr hb hfree)
  | product =>
    obtain ⟨hshape, -, -⟩ := mul_built happly
    rw [← ha.shape, ← hb.shape] at hshape
    exact exists_mul hshape hconf
  | division =>
    obtain ⟨hshape, -, hfree, -⟩ := div_built happly
    refine exists_div (hb.shape.trans hshape) (hz rfl) ?_ hconf
    exact hfree.imp hb.free_nil fun ⟨hs, hf⟩ =>
      ⟨ha.shape.trans hs, hf.imp ha.free_nil (ha.free_congr hb)⟩
  | power =>
    obtain ⟨hshape, hsb, hfb, -⟩ := pow_built happly
    exact exists_pow (ha.shape.trans hshape)
      (isScalar_iff.mpr ⟨hb.shape.trans hsb, hb.free_nil hfb⟩)

/-! ## Chains -/

/-- **A chain is renamed**, if the renaming fits. -/
theorem exists_rename_chain (hc : Canonical e) (hm : e.isModifiedTerminal)
    (hz : e.isZero = false) (hfit : ρ.Fits e.free) :
    rename ρ e = .ok (e.mapIndices ρ.onIndex) ∧ Carried ρ e (e.mapIndices ρ.onIndex) := by
  suffices h : ∃ r, rename ρ e = .ok r ∧ Carried ρ e r by
    obtain ⟨r, hr, hcarried⟩ := h
    obtain rfl := rename_chain hc hm hz hr
    exact ⟨hr, hcarried⟩
  have hkept : ∀ {e : Expr R}, Canonical e → ¬ρ.touches e.free →
      ∃ r, rename ρ e = .ok r ∧ Carried ρ e r := fun {e} hc ht =>
    ⟨e, by rw [rename.eq_def, if_neg ht], carried_self hc (by simpa using ht)⟩
  -- along the chain of modifiers, down to its terminal
  induction hc with
  | binary | listTensor => cases hm
  | @leaf t ht =>
    -- terminals other than zero have no free indices
    refine hkept (.leaf ht) ?_
    rw [free_leaf]
    cases t with
    | zero => cases hz
    | argument | coefficient | geometry | literal => simp [Terminal.free, Renaming.touches]
  | @unary op a hc happly ih =>
    by_cases ht : ρ.touches (unary op a).free
    swap
    · exact hkept (.unary hc happly) ht
    rw [isModifiedTerminal, Bool.and_eq_true] at hm
    -- a modifier binds nothing
    have hbound := UnaryOp.bound_of_isModifier hm.1
    have hwithout : ρ.without op.bound = ρ := by
      rw [hbound, ρ.without_nil]
    have hza := operand_not_zero hm.1 happly
    have hav : ρ.Avoids a.free op.bound := hbound ▸ Renaming.avoids_nil
    have hfita := hwithout ▸ hfit.inside happly hav
    obtain ⟨a', hra, ha⟩ := ih hm.2 hza hfita
    have hdomain : op.Computes ∨ a'.domain? = a.domain? := by
      rw [rename_chain hc hm.2 hza hra, domain?_mapIndices]
      exact .inr rfl
    have ha : Carried (ρ.without op.bound) a a' := hwithout.symm ▸ ha
    obtain ⟨r, hr⟩ := exists_apply_renamed (fun ids h => by rw [h] at hm; cases hm.1) happly hav
      hfit ha hdomain fun h => by rw [h] at hm; cases hm.1
    refine ⟨r, ?_, carried_unary hc happly hdomain hav ha hr⟩
    rw [rename.eq_def, if_pos ht]
    exact bind_eq_ok.mpr ⟨a', by rw [Renaming.inside_eq, hwithout, hra], hr⟩

end Expr

end WeakForm
