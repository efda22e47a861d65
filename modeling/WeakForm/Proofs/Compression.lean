import WeakForm.Proofs.TableReads

/-!
# What compression loses

The type of a table is read off its first permutation, while a compressed table keeps one row
for all permutations along an axis that its type is independent of. So a table is read back
exactly where no permutation depends on an axis that the first does not depend on; this is the
case wherever the permutations of a table agree.

* `Table.ReadsBack` — every value of a table is one of another, at row zero of the axes of
  length one;
* `Table.PermutationsFollow` — no permutation depends on more axes than the first;
* `PermutationFree.follow` — permutations that agree follow the first;
* `compress_readsBack` — what is read back of a table compressed by its own type;
* `compress_loses_oneSided` — an orientation of a facet that is lost.
-/

namespace WeakForm.Table

variable {R : Type} [Scalar R]

/-- Every value of `t` is read from `c`, at the same place except for the axes along which `c`
has a single row. -/
def ReadsBack (t c : Table R) : Prop :=
  ∀ p e q d, t.shape.Has p e q d →
    c.shape.Has (row (c.shape.permutations == 1) p) (row (c.shape.entities == 1) e)
        (row (c.shape.points == 1) q) d ∧
      c.get (row (c.shape.permutations == 1) p) (row (c.shape.entities == 1) e)
        (row (c.shape.points == 1) q) d = t.get p e q d

/-- The values of no permutation depend on the point. -/
def EachPointFree (t : Table R) : Prop :=
  ∀ p e q d, t.shape.Has p e q d → t.get p e q d = t.get p e 0 d

/-- The values of no permutation depend on the entity. -/
def EachEntityFree (t : Table R) : Prop :=
  ∀ p e q d, t.shape.Has p e q d → t.get p e q d = t.get p 0 q d

/-- All permutations have the values of the first. -/
def PermutationFree (t : Table R) : Prop :=
  ∀ p e q d, t.shape.Has p e q d → t.get p e q d = t.get 0 e q d

/-- No permutation depends on an axis that the first does not depend on. -/
structure PermutationsFollow (t : Table R) : Prop where
  point : t.PointFree → t.EachPointFree
  entity : t.EntityFree → t.EachEntityFree

/-! ## Permutations -/

variable {tol : Tolerance R} {t : Table R}

/-- Values that are the same under every permutation follow the first one. -/
theorem PermutationFree.follow (h : t.PermutationFree) : t.PermutationsFollow where
  point hpoint p e q d hhas := by
    rw [h p e q d hhas, h p e 0 d hhas.firstPoint]
    exact hpoint e q d hhas.firstPermutation
  entity hentity p e q d hhas := by
    rw [h p e q d hhas, h p 0 q d hhas.firstEntity]
    exact hentity e q d hhas.firstPermutation

theorem Constant.permutationFree {v : R} (h : t.Constant v) : t.PermutationFree := by
  intro p e q d hhas
  rw [h p e q d hhas, h 0 e q d hhas.firstPermutation]

theorem Identity.permutationFree (h : t.Identity) : t.PermutationFree := by
  intro p e q d hhas
  rw [h.2 p e q d hhas, h.2 0 e q d hhas.firstPermutation]

/-- Whether permutations are distinguished is decided by their values. -/
theorem isPermuted_eq_false_iff (htol : tol.Exact) :
    t.isPermuted tol = false ↔ t.PermutationFree := by
  simp only [isPermuted, closeBlocks, List.any_eq_false, Bool.not_eq_true, Bool.not_eq_false',
    List.mem_range, List.mem_range'_1, List.all_eq_true, htol.isClose]
  constructor
  · intro h p e q d hhas
    -- only the later permutations are compared with the first
    rcases Nat.eq_zero_or_pos p with rfl | hp
    · rfl
    · have := hhas.permutation
      exact (h p ⟨hp, by omega⟩ e hhas.entity q hhas.point d hhas.dof).symm
  · intro h p hp e he q hq d hd
    exact (h p e q d ⟨by omega, he, hq, hd⟩).symm

/-! ## The rows that are kept -/

/-- The shape of a compressed table. -/
theorem shape_compress_of_pos (hp : 0 < t.shape.permutations) (he : 0 < t.shape.entities)
    (hq : 0 < t.shape.points) (type : TableType) :
    (t.compress type tol).shape = {
      permutations := if !t.isPermuted tol then 1 else t.shape.permutations
      entities := if type.isUniform then 1 else t.shape.entities
      points := if type.isPiecewise then 1 else t.shape.points
      dofs := t.shape.dofs } := by
  -- at least one row is kept
  have hmin : ∀ (b : Bool) {n : Nat}, 0 < n →
      min (if b then 1 else n) n = if b then 1 else n := by
    intro b n hn
    split <;> omega
  have hpermuted : (if t.isPermuted tol then t.shape.permutations else 1) =
      if !t.isPermuted tol then 1 else t.shape.permutations := by
    cases t.isPermuted tol <;> rfl
  show TableShape.mk _ _ _ _ = _
  rw [hpermuted, hmin _ hp, hmin _ he, hmin _ hq]

/-- Where one of `n` rows is kept, or all of them are, reading row zero of a single row is
reading the row that is kept. -/
theorem row_kept {b : Bool} {k n : Nat} (hk : k < n) :
    row ((if b then 1 else n) == 1) k = row b k := by
  cases b with
  | true => rfl
  | false =>
    rw [if_neg Bool.false_ne_true]
    by_cases hn : n = 1
    · -- all rows are kept, and there is one
      obtain rfl : k = 0 := by omega
      rw [row_zero, row_zero]
    · rw [beq_false_of_ne hn]

theorem row_kept_lt {b : Bool} {k n : Nat} (hk : k < n) : row b k < if b then 1 else n :=
  (Nat.lt_min.mp (row_lt hk)).1

/-- A table is read back from its compression where each value is that of the rows that are
kept. -/
theorem readsBack_compress_iff (hp : 0 < t.shape.permutations) (he : 0 < t.shape.entities)
    (hq : 0 < t.shape.points) (type : TableType) :
    t.ReadsBack (t.compress type tol) ↔ ∀ p e q d, t.shape.Has p e q d →
      t.get (row (!t.isPermuted tol) p) (row type.isUniform e) (row type.isPiecewise q) d =
        t.get p e q d := by
  have hshape : (t.compress type tol).shape = _ := shape_compress_of_pos hp he hq type
  unfold ReadsBack
  -- value by value
  refine forall₄_congr fun p e q d => forall_congr' fun hhas => ?_
  rw [hshape]
  dsimp only
  rw [row_kept hhas.permutation, row_kept hhas.entity, row_kept hhas.point]
  have hin : (t.compress type tol).shape.Has (row (!t.isPermuted tol) p) (row type.isUniform e)
      (row type.isPiecewise q) d := by
    rw [hshape]
    exact ⟨row_kept_lt hhas.permutation, row_kept_lt hhas.entity, row_kept_lt hhas.point, hhas.dof⟩
  have hget : (t.compress type tol).get (row (!t.isPermuted tol) p) (row type.isUniform e)
      (row type.isPiecewise q) d =
        t.get (row (!t.isPermuted tol) p) (row type.isUniform e) (row type.isPiecewise q) d :=
    get_ofFn hin
  rw [hget, ← hshape, and_iff_right hin]

/-! ## Compression by the type -/

/-- A type that does not depend on the point, as the first permutation, has one row of points,
or else all permutations are equal. -/
theorem Is.piecewise_or_permutationFree {type : TableType} (h : t.Is type) (hpoint : t.PointFree) :
    type.isPiecewise = true ∨ t.PermutationFree := by
  cases type with
  | zeros | ones | fixed | piecewise => exact .inl rfl
  | quadrature => exact .inr (Identity.permutationFree h.2.2)
  | uniform | varying => exact absurd hpoint h.2.1

/-- Likewise for the entities: a table that does not depend on them is uniform or simple. -/
theorem Is.uniform_or_permutationFree {type : TableType} (h : t.Is type)
    (hentity : t.EntityFree) : type.isUniform = true ∨ t.PermutationFree := by
  cases type with
  | zeros | ones | fixed | uniform => exact .inl rfl
  | quadrature => exact .inr (Identity.permutationFree h.2.2)
  | piecewise | varying => exact absurd hentity h.2.2

/-- Where the permutations follow the first, every value is that of the rows that are kept. -/
theorem PermutationsFollow.get_row (htol : tol.Exact) (hfollow : t.PermutationsFollow)
    {type : TableType} (h : t.Is type) {p e q d : Nat} (hhas : t.shape.Has p e q d) :
    t.get (row (!t.isPermuted tol) p) (row type.isUniform e) (row type.isPiecewise q) d =
      t.get p e q d := by
  -- one axis after the other, the point first
  have hpoint : ∀ {p e}, t.shape.Has p e q d →
      t.get p e (row type.isPiecewise q) d = t.get p e q d := by
    intro p e hhas
    cases hpiecewise : type.isPiecewise with
    | true => exact (hfollow.point (h.pointFree hpiecewise) p e q d hhas).symm
    | false => rfl
  have hentity : ∀ {p}, t.shape.Has p e q d →
      t.get p (row type.isUniform e) q d = t.get p e q d := by
    intro p hhas
    cases huniform : type.isUniform with
    | true => exact (hfollow.entity (h.entityFree huniform) p e q d hhas).symm
    | false => rfl
  have hpermutation : t.get (row (!t.isPermuted tol) p) e q d = t.get p e q d := by
    cases hpermuted : t.isPermuted tol with
    | true => rfl
    | false => exact ((isPermuted_eq_false_iff htol).mp hpermuted p e q d hhas).symm
  -- the rows read on the way are rows of the table
  have hp : t.shape.Has (row (!t.isPermuted tol) p) e q d :=
    ⟨(Nat.lt_min.mp (row_lt hhas.permutation)).2, hhas.entity, hhas.point, hhas.dof⟩
  have he : t.shape.Has (row (!t.isPermuted tol) p) (row type.isUniform e) q d :=
    ⟨hp.permutation, (Nat.lt_min.mp (row_lt hhas.entity)).2, hhas.point, hhas.dof⟩
  rw [hpoint he, hentity hp, hpermutation]

/-- **A table is read back from its compression by its own type exactly where no permutation
depends on an axis that the first permutation does not depend on.** -/
theorem compress_readsBack [Field R] [LinearOrder R] [IsStrictOrderedRing R]
    (hR : Scalar.IsField R) {t : Table R} (hp : 0 < t.shape.permutations)
    (he : 0 < t.shape.entities) (hq : 0 < t.shape.points) :
    t.ReadsBack (t.compress (t.classify ⟨0, 0⟩) ⟨0, 0⟩) ↔ t.PermutationsFollow := by
  have htol := Tolerance.exact_zero hR
  obtain ⟨type, h⟩ := exists_is t
  rw [classify_eq htol hp h, readsBack_compress_iff hp he hq]
  constructor
  · intro hreads
    constructor
    · intro hpoint
      rcases h.piecewise_or_permutationFree hpoint with hpiecewise | hfree
      · -- every point is read at the first
        intro p e q d hhas
        rw [← hreads p e q d hhas, ← hreads p e 0 d hhas.firstPoint, hpiecewise]
        rfl
      · exact hfree.follow.point hpoint
    · intro hentity
      rcases h.uniform_or_permutationFree hentity with huniform | hfree
      · intro p e q d hhas
        rw [← hreads p e q d hhas, ← hreads p 0 q d hhas.firstEntity, huniform]
        rfl
      · exact hfree.follow.entity hentity
  · exact fun hfollow p e q d hhas => hfollow.get_row htol h hhas

/-! ### Two orientations of a facet -/

namespace Orientations

/-- The value of one function at two points of a facet, for both orientations of it. -/
def table (v₀ v₁ w₀ w₁ : ℚ) : Table ℚ where
  shape := ⟨2, 1, 2, 1⟩
  values := #[v₀, v₁, w₀, w₁]
  size_values := rfl

/-- The second orientation takes the points in the other order. -/
def reversed : Table ℚ :=
  table 1 2 2 1

/-- Only the second orientation tells the points apart. -/
def oneSided : Table ℚ :=
  table 1 1 1 2

/-- The permutations of the reversed table follow the first. -/
theorem reversed_follow : reversed.PermutationsFollow where
  point hpoint := by
    have hsame : (2 : ℚ) = 1 := hpoint 0 1 0 (by decide)
    norm_num at hsame
  entity _ p e q d hhas := by
    -- there is one entity
    obtain rfl : e = 0 := Nat.lt_one_iff.mp hhas.entity
    rfl

end Orientations

/-- Both orientations are read back where they tell the same points apart. -/
theorem compress_readsBack_reversed :
    Orientations.reversed.ReadsBack
      (Orientations.reversed.compress (Orientations.reversed.classify ⟨0, 0⟩) ⟨0, 0⟩) :=
  (compress_readsBack Scalar.isField_rational (by decide) (by decide) (by decide)).mpr
    Orientations.reversed_follow

/-- The second orientation is not read back where the first has one value at all points: a
single point is kept for both, and the value at the other one is lost. -/
theorem compress_loses_oneSided :
    let c := Orientations.oneSided.compress (Orientations.oneSided.classify ⟨0, 0⟩) ⟨0, 0⟩
    Orientations.oneSided.shape.Has 1 0 1 0 ∧ Orientations.oneSided.get 1 0 1 0 = 2 ∧
      c.shape = ⟨2, 1, 1, 1⟩ ∧ c.get 1 0 0 0 = 1 ∧ ¬Orientations.oneSided.ReadsBack c := by
  intro c
  have hhas : Orientations.oneSided.shape.Has 1 0 1 0 := by decide
  have hvalue : Orientations.oneSided.get 1 0 1 0 = 2 := by decide +kernel
  have hshape : c.shape = ⟨2, 1, 1, 1⟩ := by decide +kernel
  have hkept : c.get 1 0 0 0 = 1 := by decide +kernel
  -- the row that would be read has the value of the other point
  refine ⟨hhas, hvalue, hshape, hkept, fun hreads => ?_⟩
  obtain ⟨-, hread⟩ := hreads 1 0 1 0 hhas
  rw [hshape] at hread
  have hlost : (1 : ℚ) = 2 := hkept.symm.trans (hread.trans hvalue)
  norm_num at hlost

end WeakForm.Table
