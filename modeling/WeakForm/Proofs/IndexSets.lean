import WeakForm.Signature

/-!
# Sets of free indices

The free indices of an expression are a list that is sorted by identity, so they are a
set: two such lists with the same members are equal. The operations on them are
described by membership.

* `Sorted.eq_of_mem_iff` — sorted lists with the same members are equal;
* `Sorted.dim?_eq_some`, `has_iff` — look-up is membership;
* `mem_union`, `mem_erase`, `mem_eraseAll`, `mem_sort` — the members of a result;
* `sorted_union`, `sorted_erase`, `sorted_eraseAll`, `sorted_sort` — results are sorted;
* `mem_indexedFree`, `mem_directionFree` — the free indices of an indexing and of
  derivative directions.
-/

namespace WeakForm

/-- A free index is its identity and its dimension. -/
theorem FreeIndex.eq_of_id_of_dim {x y : FreeIndex} (hid : x.id = y.id) (hdim : x.dim = y.dim) :
    x = y := by
  cases x
  cases y
  rw [FreeIndex.mk.injEq]
  exact ⟨hid, hdim⟩

/-- In lists of one length, every index is paired with a number. -/
theorem exists_mem_zip {ids : List IndexId} {numbers : List Nat} {i : IndexId}
    (hl : ids.length = numbers.length) (h : i ∈ ids) : ∃ p, (i, p) ∈ ids.zip numbers := by
  obtain ⟨n, hn, rfl⟩ := List.mem_iff_getElem.mp h
  refine ⟨numbers[n], List.mem_iff_getElem.mpr ⟨n, ?_, List.getElem_zip⟩⟩
  rw [List.length_zip, hl, Nat.min_self, ← hl]
  exact hn

/-- Removing duplicates leaves none. -/
theorem nodup_eraseDups {α : Type} [BEq α] [LawfulBEq α] (xs : List α) : xs.eraseDups.Nodup := by
  match xs with
  | [] => simp
  | x :: xs =>
    rw [List.eraseDups_cons, List.nodup_cons]
    refine ⟨fun h => ?_, nodup_eraseDups _⟩
    have := (List.mem_filter.mp (List.mem_eraseDups.mp h)).2
    simp at this
  termination_by xs.length
  decreasing_by
    rw [List.length_cons]
    exact Nat.lt_succ_of_le (List.length_filter_le _ _)

namespace FreeIndices

variable {a b free : FreeIndices} {x y : FreeIndex} {i : IndexId} {d : Nat}

/-! ## Membership and look-up -/

theorem sorted_nil : Sorted [] :=
  List.Pairwise.nil

theorem Sorted.tail (h : Sorted (x :: free)) : Sorted free :=
  (List.pairwise_cons.mp h).2

theorem Sorted.head_lt (h : Sorted (x :: free)) (hy : y ∈ free) : x.id < y.id :=
  (List.pairwise_cons.mp h).1 y hy

/-- An index is in a sorted list once. -/
theorem Sorted.eq_of_id (h : Sorted free) (hx : x ∈ free) (hy : y ∈ free) (hid : x.id = y.id) :
    x = y := by
  induction free with
  | nil => cases hx
  | cons z free ih =>
    rcases List.mem_cons.mp hx with rfl | hx' <;> rcases List.mem_cons.mp hy with rfl | hy'
    · rfl
    · exact absurd hid (Nat.ne_of_lt (h.head_lt hy'))
    · exact absurd hid.symm (Nat.ne_of_lt (h.head_lt hx'))
    · exact ih h.tail hx' hy'

/-- Sorted lists with the same members are equal. -/
theorem Sorted.eq_of_mem_iff (ha : Sorted a) (hb : Sorted b) (h : ∀ x, x ∈ a ↔ x ∈ b) : a = b := by
  have hnodup : ∀ {l : FreeIndices}, Sorted l → l.Nodup := by
    intro l hl
    refine List.Pairwise.imp (fun {x y} hxy heq => ?_) hl
    rw [heq] at hxy
    exact Nat.lt_irrefl _ hxy
  have hasymm : ∀ x y : FreeIndex, x ∈ a → y ∈ b → x.id < y.id → y.id < x.id → x = y :=
    fun x y _ _ hxy hyx => absurd hxy (Nat.lt_asymm hyx)
  exact List.Perm.eq_of_pairwise hasymm ha hb
    ((List.perm_ext_iff_of_nodup (hnodup ha) (hnodup hb)).mpr h)

/-- A list has an identity when it has it with some dimension. -/
theorem has_iff : free.has i ↔ ∃ d, ⟨i, d⟩ ∈ free := by
  rw [has, List.any_eq_true]
  constructor
  · rintro ⟨x, hx, hid⟩
    exact ⟨x.dim, by rw [← beq_iff_eq.mp hid]; exact hx⟩
  · rintro ⟨d, h⟩
    exact ⟨_, h, by simp⟩

theorem not_has_iff : free.has i = false ↔ ∀ d, (⟨i, d⟩ : FreeIndex) ∉ free := by
  rw [← Bool.not_eq_true, has_iff]
  simp

theorem has_of_mem (h : x ∈ free) : free.has x.id :=
  has_iff.mpr ⟨x.dim, h⟩

/-- An index that is in no entry of a list is in none of a part of the list. -/
theorem not_has_mono (h : a.has i = false) (hsub : ∀ d, (⟨i, d⟩ : FreeIndex) ∈ b → ⟨i, d⟩ ∈ a) :
    b.has i = false :=
  not_has_iff.mpr fun d hd => not_has_iff.mp h d (hsub d hd)

/-- A dimension that is found belongs to an index of the list. -/
theorem mem_of_dim? (h : free.dim? i = some d) : (⟨i, d⟩ : FreeIndex) ∈ free := by
  rw [dim?, Option.map_eq_some_iff] at h
  obtain ⟨x, hx, rfl⟩ := h
  have hid := List.find?_some hx
  rw [← beq_iff_eq.mp hid]
  exact List.mem_of_find?_eq_some hx

/-- In a sorted list, the dimension of an index is that of its entry. -/
theorem Sorted.dim?_eq_some (h : Sorted free) :
    free.dim? i = some d ↔ (⟨i, d⟩ : FreeIndex) ∈ free := by
  refine ⟨mem_of_dim?, fun hx => ?_⟩
  have hsome : (free.find? fun f => f.id == i).isSome := by
    rw [List.find?_isSome]
    exact ⟨_, hx, by simp⟩
  obtain ⟨y, hy⟩ := Option.isSome_iff_exists.mp hsome
  have hid := List.find?_some hy
  have hyx := h.eq_of_id (List.mem_of_find?_eq_some hy) hx (beq_iff_eq.mp hid)
  rw [dim?, hy, hyx, Option.map_some]

/-- An index that has the same entries in two sorted lists has the same dimension. -/
theorem Sorted.dim?_congr (ha : Sorted a) (hb : Sorted b)
    (h : ∀ d, (⟨i, d⟩ : FreeIndex) ∈ a ↔ ⟨i, d⟩ ∈ b) : a.dim? i = b.dim? i := by
  ext d
  rw [ha.dim?_eq_some, hb.dim?_eq_some]
  exact h d

/-- Indices that are paired with their dimensions. -/
theorem Sorted.mem_of_zip (h : Sorted free) {ids : List IndexId} (hids : ∀ i ∈ ids, free.has i)
    (hmem : (i, d) ∈ ids.zip (ids.map fun i => (free.dim? i).getD 0)) :
    (⟨i, d⟩ : FreeIndex) ∈ free := by
  rw [List.zip_map_right, List.mem_map] at hmem
  obtain ⟨⟨j, k⟩, hzip, heq⟩ := hmem
  obtain ⟨rfl, rfl⟩ := Prod.mk.inj heq
  -- an index is paired with itself
  obtain ⟨n, hn⟩ := List.mem_iff_getElem?.mp hzip
  obtain ⟨hj, hk⟩ := List.getElem?_zip_eq_some.mp hn
  obtain rfl : j = k := Option.some.inj (hj.symm.trans hk)
  obtain ⟨d, hd⟩ := has_iff.mp (hids j (List.mem_of_getElem? hj))
  show (⟨j, (free.dim? j).getD 0⟩ : FreeIndex) ∈ free
  rw [h.dim?_eq_some.mpr hd]
  exact hd

/-! ## Union -/

/-- Lists that give no index two dimensions. -/
def Compatible (a b : FreeIndices) : Prop :=
  ∀ x ∈ a, ∀ y ∈ b, x.id = y.id → x.dim = y.dim

/-- A conflict of sorted lists is found. -/
theorem compatible_of_conflict? (ha : Sorted a) (hb : Sorted b) (h : conflict? a b = none) :
    Compatible a b := by
  fun_induction conflict? a b with
  | case1 b => simp [Compatible]
  | case2 a => simp [Compatible]
  | case3 x a y b hlt ih =>
    intro z hz w hw hid
    rcases List.mem_cons.mp hz with rfl | hz
    · -- every identity on the right is larger
      rcases List.mem_cons.mp hw with rfl | hw
      · exact absurd hid (Nat.ne_of_lt hlt)
      · exact absurd hid (Nat.ne_of_lt (Nat.lt_trans hlt (hb.head_lt hw)))
    · exact ih ha.tail hb h z hz w hw hid
  | case4 x a y b hlt hlt' ih =>
    -- every identity on the left is larger
    intro z hz w hw hid
    rcases List.mem_cons.mp hw with rfl | hw
    · rcases List.mem_cons.mp hz with rfl | hz
      · exact absurd hid.symm (Nat.ne_of_lt hlt')
      · exact absurd hid.symm (Nat.ne_of_lt (Nat.lt_trans hlt' (ha.head_lt hz)))
    · exact ih ha hb.tail h z hz w hw hid
  | case5 x a y b hlt hlt' hdim ih =>
    -- the heads are one identity, so it stands in neither tail
    intro z hz w hw hid
    have heq : x.id = y.id := Nat.le_antisymm (Nat.le_of_not_lt hlt') (Nat.le_of_not_lt hlt)
    rcases List.mem_cons.mp hz with rfl | hz' <;> rcases List.mem_cons.mp hw with rfl | hw'
    · exact hdim
    · exact absurd (heq.symm.trans hid) (Nat.ne_of_lt (hb.head_lt hw'))
    · exact absurd (heq.trans hid.symm) (Nat.ne_of_lt (ha.head_lt hz'))
    · exact ih ha.tail hb.tail h z hz' w hw' hid
  | case6 => cases h

/-- Lists that give no index two dimensions are in no conflict. -/
theorem Compatible.conflict? (h : Compatible a b) : conflict? a b = none := by
  fun_induction FreeIndices.conflict? a b with
  | case1 | case2 => rfl
  | case3 x a y b hlt ih => exact ih fun z hz => h z (List.mem_cons_of_mem _ hz)
  | case4 x a y b hlt hlt' ih =>
    exact ih fun z hz w hw => h z hz w (List.mem_cons_of_mem _ hw)
  | case5 x a y b hlt hlt' hdim ih =>
    exact ih fun z hz w hw => h z (List.mem_cons_of_mem _ hz) w (List.mem_cons_of_mem _ hw)
  | case6 x a y b hlt hlt' hdim =>
    -- an index of both lists with two dimensions is excluded
    have hid : x.id = y.id := Nat.le_antisymm (Nat.le_of_not_lt hlt') (Nat.le_of_not_lt hlt)
    exact absurd (h x List.mem_cons_self y List.mem_cons_self hid) hdim

/-- Lists without a common identity are compatible. -/
theorem compatible_of_not_has (h : ∀ y ∈ b, a.has y.id = false) : Compatible a b := by
  intro x hx y hy hid
  refine absurd ?_ (not_has_iff.mp (h y hy) x.dim)
  rw [← hid]
  exact hx

/-- The union holds indices of the two lists only. -/
theorem mem_of_mem_union (h : x ∈ union a b) : x ∈ a ∨ x ∈ b := by
  fun_induction union a b with
  | case1 b => exact .inr h
  | case2 a => exact .inl h
  | case3 y a z b hlt ih =>
    rcases List.mem_cons.mp h with rfl | h
    · exact .inl List.mem_cons_self
    · exact (ih h).imp_left (List.mem_cons_of_mem _)
  | case4 y a z b hlt hlt' ih =>
    rcases List.mem_cons.mp h with rfl | h
    · exact .inr List.mem_cons_self
    · exact (ih h).imp_right (List.mem_cons_of_mem _)
  | case5 y a z b hlt hlt' ih =>
    rcases List.mem_cons.mp h with rfl | h
    · exact .inl List.mem_cons_self
    · exact (ih h).imp (List.mem_cons_of_mem _) (List.mem_cons_of_mem _)

/-- The union holds every index of the left list. -/
theorem mem_union_left (b : FreeIndices) (h : x ∈ a) : x ∈ union a b := by
  fun_induction union a b with
  | case1 b => cases h
  | case2 a => exact h
  | case3 y a z b hlt ih =>
    rcases List.mem_cons.mp h with rfl | h
    · exact List.mem_cons_self
    · exact List.mem_cons_of_mem _ (ih h)
  | case4 y a z b hlt hlt' ih => exact List.mem_cons_of_mem _ (ih h)
  | case5 y a z b hlt hlt' ih =>
    rcases List.mem_cons.mp h with rfl | h
    · exact List.mem_cons_self
    · exact List.mem_cons_of_mem _ (ih h)

/-- The union holds every index of the right list when dimensions agree. -/
theorem mem_union_right (hc : Compatible a b) (h : x ∈ b) : x ∈ union a b := by
  fun_induction union a b with
  | case1 b => exact h
  | case2 a => cases h
  | case3 y a z b hlt ih =>
    exact List.mem_cons_of_mem _ (ih (fun w hw => hc w (List.mem_cons_of_mem _ hw)) h)
  | case4 y a z b hlt hlt' ih =>
    rcases List.mem_cons.mp h with rfl | h
    · exact List.mem_cons_self
    · exact List.mem_cons_of_mem _ (ih (fun w hw v hv => hc w hw v (List.mem_cons_of_mem _ hv)) h)
  | case5 y a z b hlt hlt' ih =>
    rcases List.mem_cons.mp h with rfl | h
    · -- an index of both lists has one dimension
      have hid : y.id = x.id := Nat.le_antisymm (Nat.le_of_not_lt hlt') (Nat.le_of_not_lt hlt)
      have hdim := hc y List.mem_cons_self x List.mem_cons_self hid
      rw [FreeIndex.eq_of_id_of_dim hid hdim]
      exact List.mem_cons_self
    · refine List.mem_cons_of_mem _ (ih (fun w hw v hv => ?_) h)
      exact hc w (List.mem_cons_of_mem _ hw) v (List.mem_cons_of_mem _ hv)

theorem mem_union (hc : Compatible a b) : x ∈ union a b ↔ x ∈ a ∨ x ∈ b :=
  ⟨mem_of_mem_union, fun h => h.elim (mem_union_left b) (mem_union_right hc)⟩

/-- The union of sorted lists is sorted. -/
theorem sorted_union (ha : Sorted a) (hb : Sorted b) : Sorted (union a b) := by
  fun_induction union a b with
  | case1 b => exact hb
  | case2 a => exact ha
  -- the first set has the smaller head
  | case3 x a y b hlt ih =>
    refine List.pairwise_cons.mpr ⟨fun z hz => ?_, ih ha.tail hb⟩
    rcases mem_of_mem_union hz with hz | hz
    · exact ha.head_lt hz
    · rcases List.mem_cons.mp hz with rfl | hz
      · exact hlt
      · exact Nat.lt_trans hlt (hb.head_lt hz)
  -- the second set has the smaller head
  | case4 x a y b hlt hlt' ih =>
    refine List.pairwise_cons.mpr ⟨fun z hz => ?_, ih ha hb.tail⟩
    rcases mem_of_mem_union hz with hz | hz
    · rcases List.mem_cons.mp hz with rfl | hz
      · exact hlt'
      · exact Nat.lt_trans hlt' (ha.head_lt hz)
    · exact hb.head_lt hz
  -- both heads have one id
  | case5 x a y b hlt hlt' ih =>
    refine List.pairwise_cons.mpr ⟨fun z hz => ?_, ih ha.tail hb.tail⟩
    rcases mem_of_mem_union hz with hz | hz
    · exact ha.head_lt hz
    · exact Nat.lt_of_le_of_lt (Nat.le_of_not_lt hlt') (hb.head_lt hz)

/-! ## Removal and sorting -/

theorem mem_erase : x ∈ free.erase i ↔ x ∈ free ∧ x.id ≠ i := by
  simp [erase]

theorem sorted_erase (h : Sorted free) (i : IndexId) : Sorted (free.erase i) :=
  h.filter _

theorem mem_eraseAll {ids : List IndexId} :
    x ∈ ids.foldl erase free ↔ x ∈ free ∧ x.id ∉ ids := by
  induction ids generalizing free with
  | nil => simp
  | cons i ids ih => rw [List.foldl_cons, ih, mem_erase, List.mem_cons, not_or, and_assoc]

/-- Erasing indices keeps the order. -/
theorem sorted_eraseAll (h : Sorted free) (ids : List IndexId) : Sorted (ids.foldl erase free) := by
  induction ids generalizing free with
  | nil => exact h
  | cons i ids ih => exact ih (sorted_erase h i)

theorem mem_sort : x ∈ sort free ↔ x ∈ free :=
  List.mem_mergeSort

/-- Indices with different identities are sorted. -/
theorem sorted_sort (h : free.Pairwise fun x y => x.id ≠ y.id) : Sorted (sort free) := by
  -- sorting is by identity, which is a total order
  have htrans : ∀ x y z : FreeIndex, decide (x.id ≤ y.id) = true → decide (y.id ≤ z.id) = true →
      decide (x.id ≤ z.id) = true := by
    intro x y z hxy hyz
    exact decide_eq_true (Nat.le_trans (of_decide_eq_true hxy) (of_decide_eq_true hyz))
  have htotal : ∀ x y : FreeIndex, (decide (x.id ≤ y.id) || decide (y.id ≤ x.id)) = true := by
    intro x y
    simpa using Nat.le_total x.id y.id
  have hle : (sort free).Pairwise fun x y => decide (x.id ≤ y.id) = true :=
    List.pairwise_mergeSort htrans htotal free
  -- what is sorted has the identities of the input, each once
  have hne : (sort free).Pairwise fun x y => x.id ≠ y.id :=
    (List.mergeSort_perm free _).symm.pairwise h fun {_ _} hxy => hxy.symm
  refine (hle.and hne).imp fun {x y} h => ?_
  exact Nat.lt_of_le_of_ne (of_decide_eq_true h.1) h.2

end FreeIndices

/-! ## Indices of an indexing and of directions -/

namespace Signature

variable {is : List Index} {shape : List Nat} {x : FreeIndex}

/-- The free indices of an indexing are its free entries with the axes they stand at. -/
theorem mem_indexedFree : x ∈ indexedFree is shape ↔ (Index.free x.id, x.dim) ∈ is.zip shape := by
  rw [indexedFree, FreeIndices.mem_sort, List.mem_filterMap]
  constructor
  · rintro ⟨⟨j, d⟩, hmem, heq⟩
    cases j with
    -- a fixed entry gives no free index
    | fixed p => cases heq
    | free i =>
      cases heq
      exact hmem
  · intro h
    exact ⟨_, h, rfl⟩

/-- No free entry stands twice in an indexing. -/
def Distinct (is : List Index) : Prop :=
  is.Pairwise fun j k => ∀ i, j = .free i → k ≠ .free i

theorem sorted_indexedFree (h : Distinct is) : (indexedFree is shape).Sorted := by
  refine FreeIndices.sorted_sort ?_
  induction is generalizing shape with
  | nil => simp
  | cons j is ih =>
    cases shape with
    | nil => simp
    | cons d shape =>
      have htail := @ih shape (List.pairwise_cons.mp h).2
      cases j with
      | fixed p => exact htail
      | free i =>
        refine List.pairwise_cons.mpr ⟨fun y hy => ?_, htail⟩
        obtain ⟨⟨k, d'⟩, hk, heq⟩ := List.mem_filterMap.mp hy
        cases k with
        | fixed p => cases heq
        | free i' =>
          cases heq
          intro hid
          refine (List.pairwise_cons.mp h).1 _ (List.of_mem_zip hk).1 i rfl ?_
          exact congrArg Index.free hid.symm

/-- The free indices of a direction, each with the geometric dimension. -/
theorem mem_directionFree {gdim : Nat} :
    x ∈ directionFree is gdim ↔ Index.free x.id ∈ is ∧ x.dim = gdim := by
  rw [directionFree, FreeIndices.mem_sort, List.mem_map]
  constructor
  · rintro ⟨i, hi, rfl⟩
    obtain ⟨j, hj, heq⟩ := List.mem_filterMap.mp (List.mem_eraseDups.mp hi)
    cases j with
    | fixed p => cases heq
    | free i' =>
      cases heq
      exact ⟨hj, rfl⟩
  · rintro ⟨hmem, rfl⟩
    exact ⟨x.id, List.mem_eraseDups.mpr (List.mem_filterMap.mpr ⟨_, hmem, rfl⟩), rfl⟩

theorem sorted_directionFree (is : List Index) (gdim : Nat) : (directionFree is gdim).Sorted := by
  refine FreeIndices.sorted_sort ?_
  rw [List.pairwise_map]
  exact nodup_eraseDups _

end Signature

end WeakForm
