import WeakForm.Proofs.Attributes
import WeakForm.Proofs.IndexSets
import WeakForm.Proofs.Outcome

/-!
# Merging free indices

The free indices of a product are those of its factors. Where both factors have an index, they
have to give it one dimension; then the lists are merged. Merging goes through both sorted
lists at once and fails at the first index that they give different dimensions. It is union of
sets where it does not fail, and whether it fails is a matter of any two of the lists, so the
order and the grouping of operands play no part.

* `merge_cons_cons` — one pass through both lists;
* `merge_comm` — the operands the other way round, with the dimensions in the error;
* `Conflicts`, `merge_fails_iff` — when merging fails;
* `merge_eq_ok`, `merge_merge_eq_ok` — what two and three lists are merged to;
* `merge_checkedUnion` — the laws of merging;
* `Expr.free_mul` — a product has the merged indices of its factors.
-/

namespace WeakForm

/-- The same conflict, with the operands the other way round. -/
def DimensionConflict.swap (c : DimensionConflict) : DimensionConflict :=
  ⟨c.id, c.right, c.left⟩

namespace FreeIndices

variable {a b c m : FreeIndices} {x y : FreeIndex} {e : DimensionConflict}

/-! ## One pass through both lists -/

@[simp] theorem conflict?_nil (a : FreeIndices) : conflict? a [] = none := by
  cases a <;> simp [conflict?]

@[simp] theorem nil_merge (b : FreeIndices) : merge [] b = .ok b := by
  simp [merge, conflict?]

@[simp] theorem merge_nil (a : FreeIndices) : merge a [] = .ok a := by
  simp [merge]

theorem merge_eq_map_cons (z : FreeIndex) (h : conflict? a b = conflict? c m)
    (hunion : union a b = z :: union c m) : merge a b = (z :: ·) <$> merge c m := by
  rw [merge, merge, h, hunion]
  cases conflict? c m <;> rfl

/-- The smaller head comes first. An index of both lists comes once, if its dimensions agree. -/
theorem merge_cons_cons (x y : FreeIndex) (a b : FreeIndices) :
    merge (x :: a) (y :: b) =
      if x.id < y.id then (x :: ·) <$> merge a (y :: b)
      else if y.id < x.id then (y :: ·) <$> merge (x :: a) b
      else if x.dim = y.dim then (x :: ·) <$> merge a b
      else .error ⟨x.id, x.dim, y.dim⟩ := by
  split
  -- the left head is the smaller one
  · next hlt =>
    refine merge_eq_map_cons x ?_ ?_
    · rw [conflict?, if_pos hlt]
    · rw [union, if_pos hlt]
  split
  -- the right head is the smaller one
  · next hle hlt =>
    refine merge_eq_map_cons y ?_ ?_
    · rw [conflict?, if_neg hle, if_pos hlt]
    · rw [union, if_neg hle, if_pos hlt]
  split
  -- one identity, which is kept once if its dimensions agree
  · next hle hge hdim =>
    refine merge_eq_map_cons x ?_ ?_
    · rw [conflict?, if_neg hle, if_neg hge, if_pos hdim]
    · rw [union, if_neg hle, if_neg hge]
  · next hle hge hdim => rw [merge, conflict?, if_neg hle, if_neg hge, if_neg hdim]

/-- The lists the other way round are merged alike, and fail at the same index. -/
theorem merge_comm (a b : FreeIndices) :
    merge b a = (merge a b).mapError DimensionConflict.swap := by
  -- a head in front of the rest changes no error
  have hmap : ∀ (z : FreeIndex) (r : Except DimensionConflict FreeIndices),
      (z :: ·) <$> r.mapError DimensionConflict.swap =
        ((z :: ·) <$> r).mapError DimensionConflict.swap := by
    intro z r
    cases r <;> rfl
  fun_induction union a b with
  | case1 b =>
    rw [nil_merge, merge_nil]
    rfl
  | case2 a =>
    rw [nil_merge, merge_nil]
    rfl
  | case3 x a y b hlt ih =>
    rw [merge_cons_cons, merge_cons_cons, if_neg (Nat.lt_asymm hlt), if_pos hlt, if_pos hlt, ih,
      hmap]
  | case4 x a y b hle hlt ih =>
    rw [merge_cons_cons, merge_cons_cons, if_pos hlt, if_neg hle, if_pos hlt, ih, hmap]
  | case5 x a y b hle hge ih =>
    -- the heads are compared the same way in both orders
    rw [merge_cons_cons, merge_cons_cons, if_neg hle, if_neg hge, if_neg hle, if_neg hge]
    have hid : x.id = y.id := Nat.le_antisymm (Nat.le_of_not_lt hge) (Nat.le_of_not_lt hle)
    by_cases hdim : x.dim = y.dim
    -- equal heads, so either one may be kept
    · rw [if_pos hdim, if_pos hdim.symm, FreeIndex.eq_of_id_of_dim hid hdim, ih, hmap]
    -- the conflict names the dimensions the other way round
    · rw [if_neg hdim, if_neg (Ne.symm hdim), ← hid]
      rfl

/-! ## Failure -/

/-- Both lists have the index, with the two dimensions, and these differ. -/
structure Conflicts (a b : FreeIndices) (e : DimensionConflict) : Prop where
  left : ⟨e.id, e.left⟩ ∈ a
  right : ⟨e.id, e.right⟩ ∈ b
  differ : e.left ≠ e.right

theorem Conflicts.cons_left (h : Conflicts a b e) (x : FreeIndex) : Conflicts (x :: a) b e :=
  ⟨List.mem_cons_of_mem x h.left, h.right, h.differ⟩

theorem Conflicts.cons_right (h : Conflicts a b e) (y : FreeIndex) : Conflicts a (y :: b) e :=
  ⟨h.left, List.mem_cons_of_mem y h.right, h.differ⟩

/-- Lists are compatible when no two entries conflict. -/
theorem compatible_iff : Compatible a b ↔ ∀ e, ¬Conflicts a b e := by
  constructor
  · intro h e he
    exact he.differ (h _ he.left _ he.right rfl)
  · intro h x hx y hy hid
    by_contra hdim
    obtain ⟨i, d⟩ := y
    obtain rfl : x.id = i := hid
    exact h ⟨x.id, x.dim, d⟩ ⟨hx, hy, hdim⟩

theorem Compatible.symm (h : Compatible a b) : Compatible b a :=
  fun x hx y hy hid => (h y hy x hx hid.symm).symm

/-- What is reported is a conflict. -/
theorem conflicts_of_merge (h : merge a b = .error e) : Conflicts a b e := by
  fun_induction union a b with
  | case1 b => simp at h
  | case2 a => simp at h
  | case3 x a y b hlt ih =>
    -- a conflict of the tails is one of the lists
    rw [merge_cons_cons, if_pos hlt] at h
    exact (ih (map_eq_error.mp h)).cons_left x
  | case4 x a y b hle hlt ih =>
    rw [merge_cons_cons, if_neg hle, if_pos hlt] at h
    exact (ih (map_eq_error.mp h)).cons_right y
  | case5 x a y b hle hge ih =>
    rw [merge_cons_cons, if_neg hle, if_neg hge] at h
    split at h
    · exact ((ih (map_eq_error.mp h)).cons_left x).cons_right y
    · next hdim =>
      -- the heads themselves
      cases h
      have hid : x.id = y.id := Nat.le_antisymm (Nat.le_of_not_lt hge) (Nat.le_of_not_lt hle)
      refine ⟨List.mem_cons_self, ?_, hdim⟩
      rw [hid]
      exact List.mem_cons_self

/-- Merging sorted lists ends with their union if they are compatible. -/
theorem merge_of_compatible (h : Compatible a b) : merge a b = .ok (union a b) := by
  rw [merge, h.conflict?]

/-- Sorted lists that merge are compatible. -/
theorem compatible_of_merge (ha : Sorted a) (hb : Sorted b) (h : merge a b = .ok m) :
    Compatible a b := by
  rw [merge] at h
  split at h
  · cases h
  · next hnone => exact compatible_of_conflict? ha hb hnone

/-- **Every conflict of sorted lists is found.** -/
theorem merge_fails_iff (ha : Sorted a) (hb : Sorted b) :
    (∃ e, merge a b = .error e) ↔ ∃ e, Conflicts a b e := by
  constructor
  · rintro ⟨e, he⟩
    exact ⟨e, conflicts_of_merge he⟩
  · rintro ⟨e, he⟩
    cases hm : merge a b with
    | error e' => exact ⟨e', rfl⟩
    | ok m => exact absurd he (compatible_iff.mp (compatible_of_merge ha hb hm) e)

/-! ## The union -/

/-- The sorted list of the entries of both. -/
theorem merge_eq_ok (ha : Sorted a) (hb : Sorted b) : merge a b = .ok m ↔
    Compatible a b ∧ Sorted m ∧ ∀ x, x ∈ m ↔ x ∈ a ∨ x ∈ b := by
  constructor
  · intro h
    have hcompat := compatible_of_merge ha hb h
    rw [merge_of_compatible hcompat] at h
    cases h
    exact ⟨hcompat, sorted_union ha hb, fun x => mem_union hcompat⟩
  -- a sorted list is determined by its members
  · rintro ⟨hcompat, hm, hmem⟩
    have heq : union a b = m :=
      (sorted_union ha hb).eq_of_mem_iff hm fun x => (mem_union hcompat).trans (hmem x).symm
    rw [merge_of_compatible hcompat, heq]

/-- A list is compatible with a union when it is compatible with both parts. -/
theorem compatible_union_left (hab : Compatible a b) :
    Compatible (union a b) c ↔ Compatible a c ∧ Compatible b c := by
  simp only [Compatible, mem_union hab]
  constructor
  · intro h
    exact ⟨fun x hx => h x (.inl hx), fun x hx => h x (.inr hx)⟩
  · rintro ⟨ha, hb⟩ x (hx | hx)
    · exact ha x hx
    · exact hb x hx

/-- Three lists are merged if any two are compatible, and then to the entries of all. -/
theorem merge_merge_eq_ok (ha : Sorted a) (hb : Sorted b) (hc : Sorted c) :
    (do merge (← merge a b) c) = .ok m ↔
      (Compatible a b ∧ Compatible a c ∧ Compatible b c) ∧ Sorted m ∧
        ∀ x, x ∈ m ↔ x ∈ a ∨ x ∈ b ∨ x ∈ c := by
  rw [bind_eq_ok]
  constructor
  · rintro ⟨ab, hab, h⟩
    have hcompat := compatible_of_merge ha hb hab
    rw [merge_of_compatible hcompat] at hab
    cases hab
    -- what is compatible with a union is compatible with both parts
    obtain ⟨hrest, hm, hmem⟩ := (merge_eq_ok (sorted_union ha hb) hc).mp h
    refine ⟨⟨hcompat, (compatible_union_left hcompat).mp hrest⟩, hm, fun x => ?_⟩
    rw [hmem, mem_union hcompat, or_assoc]
  -- and the union of the first two merges with the third
  · rintro ⟨⟨hcompat, hrest⟩, hm, hmem⟩
    refine ⟨union a b, merge_of_compatible hcompat, ?_⟩
    refine (merge_eq_ok (sorted_union ha hb) hc).mpr
      ⟨(compatible_union_left hcompat).mpr hrest, hm, fun x => ?_⟩
    rw [hmem, mem_union hcompat, or_assoc]

/-- Merging ends alike for both orders of operands. -/
theorem merge_eq_ok_comm : merge a b = .ok m ↔ merge b a = .ok m := by
  rw [merge_comm a b]
  cases merge a b with
  | ok m => exact Iff.rfl
  | error c => exact ⟨nofun, nofun⟩

/-- Merging three lists ends alike for both groupings, be it with a list or with a failure. -/
theorem merge_assoc (ha : Sorted a) (hb : Sorted b) (hc : Sorted c) :
    (do merge (← merge a b) c) = .ok m ↔ (do merge a (← merge b c)) = .ok m := by
  -- on the right, the first list is merged last
  have hswap : (do merge a (← merge b c)) = .ok m ↔ (do merge (← merge b c) a) = .ok m := by
    simp only [bind_eq_ok, merge_eq_ok_comm (a := a)]
  -- compatibility in pairs does not depend on the order
  have hcompat : Compatible a b ∧ Compatible a c ∧ Compatible b c ↔
      Compatible b c ∧ Compatible b a ∧ Compatible c a := by
    constructor
    · rintro ⟨hab, hac, hbc⟩
      exact ⟨hbc, hab.symm, hac.symm⟩
    · rintro ⟨hbc, hba, hca⟩
      exact ⟨hba.symm, hca.symm, hbc⟩
  have hmem : ∀ x, (x ∈ a ∨ x ∈ b ∨ x ∈ c) ↔ (x ∈ b ∨ x ∈ c ∨ x ∈ a) := by
    intro x
    rw [or_comm, or_assoc]
  rw [hswap, merge_merge_eq_ok ha hb hc, merge_merge_eq_ok hb hc ha]
  simp only [hcompat, hmem]

/-- **Merging is a checked sorted union.** It fails exactly if some index is in both lists with
different dimensions, and reports such an index. Otherwise it gives the sorted list of exactly
the entries of both. It is commutative, associative, where both sides fail or neither does, and
idempotent, with the empty list as unit. -/
theorem merge_checkedUnion (ha : Sorted a) (hb : Sorted b) (hc : Sorted c) :
    ((∃ e, merge a b = .error e) ↔ ∃ x ∈ a, ∃ y ∈ b, x.id = y.id ∧ x.dim ≠ y.dim) ∧
      (∀ e, merge a b = .error e → Conflicts a b e) ∧
      (∀ m, merge a b = .ok m ↔ Compatible a b ∧ Sorted m ∧ ∀ x, x ∈ m ↔ x ∈ a ∨ x ∈ b) ∧
      merge b a = (merge a b).mapError DimensionConflict.swap ∧
      (∀ m, (do merge (← merge a b) c) = .ok m ↔ (do merge a (← merge b c)) = .ok m) ∧
      merge a a = .ok a ∧ merge [] a = .ok a ∧ merge a [] = .ok a := by
  refine ⟨?_, fun e => conflicts_of_merge, fun m => merge_eq_ok ha hb, merge_comm a b,
    fun m => ?_, ?_, nil_merge a, merge_nil a⟩
  · rw [merge_fails_iff ha hb]
    -- a failing merge names two entries that conflict
    constructor
    · rintro ⟨e, he⟩
      exact ⟨_, he.left, _, he.right, rfl, he.differ⟩
    · rintro ⟨x, hx, ⟨i, d⟩, hy, hid, hdim⟩
      obtain rfl : x.id = i := hid
      exact ⟨⟨x.id, x.dim, d⟩, hx, hy, hdim⟩
  · exact merge_assoc ha hb hc
  -- a sorted list has one dimension for every identity
  · refine (merge_eq_ok ha ha).mpr ⟨?_, ha, fun x => (or_self_iff).symm⟩
    intro x hx y hy hid
    rw [ha.eq_of_id hx hy hid]

/-- Two lists that share an index, and a third that gives it another dimension. -/
theorem merge_checkedUnion_shared :
    Sorted [⟨1, 2⟩, ⟨4, 3⟩] ∧ Sorted [⟨2, 3⟩, ⟨4, 3⟩] ∧ Sorted [⟨4, 2⟩] ∧
      merge [⟨1, 2⟩, ⟨4, 3⟩] [⟨2, 3⟩, ⟨4, 3⟩] = .ok [⟨1, 2⟩, ⟨2, 3⟩, ⟨4, 3⟩] ∧
      merge [⟨2, 3⟩, ⟨4, 3⟩] [⟨4, 2⟩] = .error ⟨4, 3, 2⟩ ∧
      ∀ m, (do merge (← merge [⟨1, 2⟩, ⟨4, 3⟩] [⟨2, 3⟩, ⟨4, 3⟩]) [⟨4, 2⟩]) ≠ .ok m := by
  have ha : Sorted [⟨1, 2⟩, ⟨4, 3⟩] := by decide
  have hb : Sorted [⟨2, 3⟩, ⟨4, 3⟩] := by decide
  have hc : Sorted [⟨4, 2⟩] := by decide
  obtain ⟨-, -, hok, -, hassoc, -⟩ := merge_checkedUnion ha hb hc
  have herror : merge [⟨2, 3⟩, ⟨4, 3⟩] [⟨4, 2⟩] = .error ⟨4, 3, 2⟩ := by
    simp [merge, conflict?]
  refine ⟨ha, hb, hc, (hok _).mpr ⟨?_, by decide, ?_⟩, herror, fun m hm => ?_⟩
  -- the shared index has dimension three in both lists
  · simp [Compatible]
  · intro x
    simp only [List.mem_cons, List.not_mem_nil, or_false]
    tauto
  · -- the other grouping fails at once
    have hright := (hassoc m).mp hm
    rw [herror] at hright
    cases hright

end FreeIndices

/-! ## Products -/

namespace Expr

variable {R : Type} [Scalar R] {a b : Expr R}

/-- **Building a product merges the free indices of its factors**, and fails where merging
does. -/
theorem free_mul (hs : a.shape = [] ∨ b.shape = []) :
    (a.mul b).map free = (FreeIndices.merge a.free b.free).mapError Breach.indexDimensions := by
  cases hc : a.free.conflict? b.free with
  | none =>
    obtain ⟨r, hr⟩ := exists_mul hs hc
    rw [hr, FreeIndices.merge, hc]
    exact congrArg Except.ok (attributes_mul hr).2
  | some e =>
    rw [mul, mergeFree, FreeIndices.merge, hc]
    simp only [List.isEmpty_iff, hs]
    rfl

end Expr

end WeakForm
