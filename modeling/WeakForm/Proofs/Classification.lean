import Mathlib.Algebra.Order.Field.Basic
import WeakForm.Proofs.TablePlaces
import WeakForm.Table.Classification

/-!
# Exact classification of tables

Where numbers are compared exactly, the type of a table is decided by its values: they are
zero, one or the identity, and those of the first permutation do or do not depend on the point
and the entity. A compressed table with one permutation keeps every value, at a place that the
type tells, and has the type of the table it was made from.

* `Scalar.IsField`, `Tolerance.Exact` — exact numbers, and exact comparison;
* `Table.Is`, `classify_eq` — the types, by the values;
* `compress_reads` — where a compressed table keeps a value;
* `classify_compress` — compression keeps the type.
-/

namespace WeakForm

/-! ## Exact comparison -/

/-- The operations on numbers are those of an ordered field. -/
structure Scalar.IsField (R : Type) [Field R] [LinearOrder R] [Scalar R] : Prop where
  ofInt (n : Int) : (Scalar.ofInt n : R) = n
  add (a b : R) : Scalar.add a b = a + b
  sub (a b : R) : Scalar.sub a b = a - b
  mul (a b : R) : Scalar.mul a b = a * b
  abs (a : R) : Scalar.abs a = |a|
  le (a b : R) : Scalar.le a b ↔ a ≤ b

variable {R : Type} [Scalar R]

/-- Only equal values count as equal, and only zero is negligible. -/
structure Tolerance.Exact (tol : Tolerance R) : Prop where
  isClose (a b : R) : tol.isClose a b ↔ a = b
  isNegligible (a : R) : tol.isNegligible a ↔ a = Scalar.zero
  zero_ne_one : (Scalar.zero : R) ≠ Scalar.one

/-- Without tolerances exact numbers are compared exactly. -/
theorem Tolerance.exact_zero [Field R] [LinearOrder R] [IsStrictOrderedRing R]
    (h : Scalar.IsField R) : (⟨0, 0⟩ : Tolerance R).Exact where
  isClose a b := by
    rw [Tolerance.isClose, h.le, h.abs, h.sub, h.add, h.mul, zero_mul, add_zero, abs_nonpos_iff,
      sub_eq_zero]
  isNegligible a := by
    rw [Tolerance.isNegligible, h.le, h.abs, abs_nonpos_iff, Scalar.zero, h.ofInt, Int.cast_zero]
  zero_ne_one := by
    rw [Scalar.zero, Scalar.one, h.ofInt, h.ofInt, Int.cast_zero, Int.cast_one]
    exact zero_ne_one

namespace Table

variable {tol : Tolerance R} {t : Table R}

/-! ## What a type says of the values -/

/-- All values are `v`. -/
def Constant (t : Table R) (v : R) : Prop :=
  ∀ p e q d, t.shape.Has p e q d → t.get p e q d = v

/-- There is one dof, and all values are one. -/
def Ones (t : Table R) : Prop :=
  t.shape.dofs = 1 ∧ t.Constant Scalar.one

/-- The values are the identity between points and dofs. -/
def Identity (t : Table R) : Prop :=
  t.shape.points = t.shape.dofs ∧
    ∀ p e q d, t.shape.Has p e q d → t.get p e q d = if q = d then Scalar.one else Scalar.zero

/-- The values of the first permutation do not depend on the point. -/
def PointFree (t : Table R) : Prop :=
  ∀ e q d, t.shape.Has 0 e q d → t.get 0 e q d = t.get 0 e 0 d

/-- The values of the first permutation do not depend on the entity. -/
def EntityFree (t : Table R) : Prop :=
  ∀ e q d, t.shape.Has 0 e q d → t.get 0 e q d = t.get 0 0 q d

section Exact

variable (htol : tol.Exact)

include htol

/-- With an exact tolerance, the checks say of the values what they are named for. -/
theorem isZeros_iff : t.isZeros tol ↔ t.Constant Scalar.zero := by
  rw [isZeros, all_values]
  simp only [htol.isClose, Constant]

theorem isOnes_iff : t.isOnes tol ↔ t.Ones := by
  rw [isOnes, Bool.and_eq_true, all_values, beq_iff_eq]
  simp only [htol.isClose, Ones, Constant]

theorem isQuadrature_iff : t.isQuadrature tol ↔ t.Identity := by
  rw [isQuadrature, Bool.and_eq_true, forRows_iff, beq_iff_eq, Identity]
  simp only [List.all_eq_true, List.mem_range, htol.isClose]
  refine and_congr_right fun _ => ⟨fun h p e q d hhas => ?_, fun h p hp e he q hq d hd => ?_⟩
  · exact h p hhas.permutation e hhas.entity q hhas.point d hhas.dof
  · exact h p e q d ⟨hp, he, hq, hd⟩

/-- Only the first permutation is looked at, so there must be one. -/
theorem isPiecewise_iff (hp : 0 < t.shape.permutations) : t.isPiecewise tol ↔ t.PointFree := by
  simp only [isPiecewise, List.all_eq_true, List.mem_range, List.mem_range'_1, htol.isClose]
  constructor
  · intro h e q d hhas
    -- only the later points are compared with the first
    rcases Nat.eq_zero_or_pos q with rfl | hq
    · rfl
    · have := hhas.point
      exact (h e hhas.entity q ⟨hq, by omega⟩ d hhas.dof).symm
  · intro h e he q hq d hd
    exact (h e q d ⟨by omega, he, by omega, hd⟩).symm

/-- Whether the values depend on the entity is read off the first permutation, too. -/
theorem isUniform_iff (hp : 0 < t.shape.permutations) : t.isUniform tol ↔ t.EntityFree := by
  simp only [isUniform, closeBlocks, List.all_eq_true, List.mem_range, List.mem_range'_1,
    htol.isClose]
  constructor
  · intro h e q d hhas
    -- only the later entities are compared with the first
    rcases Nat.eq_zero_or_pos e with rfl | he
    · rfl
    · have := hhas.entity
      exact (h e ⟨he, by omega⟩ q hhas.point d hhas.dof).symm
  · intro h e he q hq d hd
    exact (h e q d ⟨by omega, by omega, hq, hd⟩).symm

end Exact

/-- The values are neither zero, nor one column of ones, nor the identity. -/
structure Plain (t : Table R) : Prop where
  notZero : ¬t.Constant Scalar.zero
  notOnes : ¬t.Ones
  notIdentity : ¬t.Identity

/-- What a type says of the values. -/
def Is (t : Table R) : TableType → Prop
  | .zeros => t.Constant Scalar.zero
  | .ones => ¬t.Constant Scalar.zero ∧ t.Ones
  | .quadrature => ¬t.Constant Scalar.zero ∧ ¬t.Ones ∧ t.Identity
  | .fixed => t.Plain ∧ t.PointFree ∧ t.EntityFree
  | .piecewise => t.Plain ∧ t.PointFree ∧ ¬t.EntityFree
  | .uniform => t.Plain ∧ ¬t.PointFree ∧ t.EntityFree
  | .varying => t.Plain ∧ ¬t.PointFree ∧ ¬t.EntityFree

/-- The values have some type. -/
theorem exists_is (t : Table R) : ∃ type, t.Is type := by
  by_cases hzero : t.Constant Scalar.zero
  · exact ⟨.zeros, hzero⟩
  by_cases hones : t.Ones
  · exact ⟨.ones, hzero, hones⟩
  by_cases hid : t.Identity
  · exact ⟨.quadrature, hzero, hones, hid⟩
  have hplain : t.Plain := ⟨hzero, hones, hid⟩
  -- a plain table is told by the two axes that its values may depend on
  by_cases hpoint : t.PointFree
  · by_cases hentity : t.EntityFree
    · exact ⟨.fixed, hplain, hpoint, hentity⟩
    · exact ⟨.piecewise, hplain, hpoint, hentity⟩
  · by_cases hentity : t.EntityFree
    · exact ⟨.uniform, hplain, hpoint, hentity⟩
    · exact ⟨.varying, hplain, hpoint, hentity⟩

/-- **A table is classified by what its values are.** -/
theorem classify_eq (htol : tol.Exact) (hp : 0 < t.shape.permutations) {type : TableType}
    (h : t.Is type) : t.classify tol = type := by
  unfold classify
  -- in the order of the checks; what a type says of the values excludes those before it
  by_cases hzero : t.Constant Scalar.zero
  · rw [if_pos (by rw [(isZeros_iff htol).mpr hzero, Bool.or_true])]
    cases type with
    | zeros => rfl
    | ones | quadrature => exact absurd hzero h.1
    | fixed | piecewise | uniform | varying => exact absurd hzero h.1.notZero
  · -- a table without values counts as one of zeros
    have hvalues : ¬(t.values.isEmpty || t.isZeros tol) := by
      rw [Bool.or_eq_true, values_isEmpty, isZeros_iff htol]
      rintro (hempty | hz)
      · exact hzero fun p e q d hhas => absurd hhas (hempty p e q d)
      · exact hzero hz
    rw [if_neg hvalues]
    by_cases hones : t.Ones
    · rw [if_pos ((isOnes_iff htol).mpr hones)]
      cases type with
      | zeros => exact absurd h hzero
      | ones => rfl
      | quadrature => exact absurd hones h.2.1
      | fixed | piecewise | uniform | varying => exact absurd hones h.1.notOnes
    · rw [if_neg (by rwa [isOnes_iff htol])]
      by_cases hid : t.Identity
      · rw [if_pos ((isQuadrature_iff htol).mpr hid)]
        cases type with
        | zeros => exact absurd h hzero
        | ones => exact absurd h.2 hones
        | quadrature => rfl
        | fixed | piecewise | uniform | varying => exact absurd hid h.1.notIdentity
      · -- the other types are told by what the values depend on
        rw [if_neg (by rwa [isQuadrature_iff htol])]
        have hpoint := isPiecewise_iff htol hp
        have hentity := isUniform_iff htol hp
        cases type with
        | zeros => exact absurd h hzero
        | ones => exact absurd h.2 hones
        | quadrature => exact absurd h.2.2 hid
        | fixed => rw [hpoint.mpr h.2.1, hentity.mpr h.2.2]
        | piecewise =>
          rw [hpoint.mpr h.2.1, Bool.eq_false_iff.mpr fun hu => h.2.2 (hentity.mp hu)]
        | uniform =>
          rw [Bool.eq_false_iff.mpr fun hq => h.2.1 (hpoint.mp hq), hentity.mpr h.2.2]
        | varying =>
          rw [Bool.eq_false_iff.mpr fun hq => h.2.1 (hpoint.mp hq),
            Bool.eq_false_iff.mpr fun hu => h.2.2 (hentity.mp hu)]

/-! ## Compression -/

theorem Constant.pointFree {v : R} (h : t.Constant v) : t.PointFree := by
  intro e q d hhas
  rw [h 0 e q d hhas, h 0 e 0 d hhas.firstPoint]

theorem Constant.entityFree {v : R} (h : t.Constant v) : t.EntityFree := by
  intro e q d hhas
  rw [h 0 e q d hhas, h 0 0 q d hhas.firstEntity]

/-- Where a type is independent of the point, the values are. -/
theorem Is.pointFree {type : TableType} (h : t.Is type) (hp : type.isPiecewise) : t.PointFree := by
  cases type with
  | zeros => exact Constant.pointFree h
  | ones => exact h.2.2.pointFree
  | fixed | piecewise => exact h.2.1
  | uniform | quadrature | varying => cases hp

/-- Where a type is independent of the entity, the values are. -/
theorem Is.entityFree {type : TableType} (h : t.Is type) (hu : type.isUniform) :
    t.EntityFree := by
  cases type with
  | zeros => exact Constant.entityFree h
  | ones => exact h.2.2.entityFree
  | fixed | uniform => exact h.2.2
  | piecewise | quadrature | varying => cases hu

variable (tol)

/-- The row that a type is read at. -/
def row (redundant : Bool) (k : Nat) : Nat :=
  if redundant then 0 else k

theorem row_zero (redundant : Bool) : row redundant 0 = 0 :=
  ite_self 0

/-- The row is within what is kept of `n` rows. -/
theorem row_lt {redundant : Bool} {k n : Nat} (hk : k < n) :
    row redundant k < min (if redundant then 1 else n) n := by
  cases redundant with
  | true => exact Nat.lt_min.mpr ⟨Nat.zero_lt_one, Nat.zero_lt_of_lt hk⟩
  | false => exact Nat.lt_min.mpr ⟨hk, hk⟩

/-- The shape of a compressed table with one permutation. -/
theorem shape_compress (hp : t.shape.permutations = 1) (type : TableType) :
    (t.compress type tol).shape = {
      permutations := 1
      entities := min (if type.isUniform then 1 else t.shape.entities) t.shape.entities
      points := min (if type.isPiecewise then 1 else t.shape.points) t.shape.points
      dofs := t.shape.dofs } := by
  -- one permutation has nothing to differ from
  have hpermuted : t.isPermuted tol = false := by
    rw [isPermuted, hp]
    rfl
  show TableShape.mk _ _ _ _ = _
  rw [hpermuted, hp]
  rfl

/-- A position of a compressed table is one of the table, and has the same value. -/
theorem get_compress (hp : t.shape.permutations = 1) {type : TableType} {e q d : Nat}
    (h : (t.compress type tol).shape.Has 0 e q d) :
    t.shape.Has 0 e q d ∧ (t.compress type tol).get 0 e q d = t.get 0 e q d := by
  have hshape := shape_compress tol hp type
  have hget : (t.compress type tol).get 0 e q d = t.get 0 e q d := get_ofFn h
  rw [hshape] at h
  refine ⟨⟨by omega, ?_, ?_, h.dof⟩, hget⟩
  · exact Nat.lt_of_lt_of_le h.entity (Nat.min_le_right _ _)
  · exact Nat.lt_of_lt_of_le h.point (Nat.min_le_right _ _)

/-- **Where a compressed table keeps a value**: at the row of the entity and of the point
that its type tells. -/
theorem compress_reads (hp : t.shape.permutations = 1) {type : TableType} (h : t.Is type)
    {e q d : Nat} (hhas : t.shape.Has 0 e q d) :
    (t.compress type tol).shape.Has 0 (row type.isUniform e) (row type.isPiecewise q) d ∧
      (t.compress type tol).get 0 (row type.isUniform e) (row type.isPiecewise q) d =
        t.get 0 e q d := by
  have hrow : (t.compress type tol).shape.Has 0 (row type.isUniform e)
      (row type.isPiecewise q) d := by
    rw [shape_compress tol hp]
    exact ⟨Nat.zero_lt_one, row_lt hhas.entity, row_lt hhas.point, hhas.dof⟩
  obtain ⟨hin, hget⟩ := get_compress tol hp hrow
  refine ⟨hrow, hget.trans ?_⟩
  -- first the point, then the entity
  have hq : t.get 0 (row type.isUniform e) (row type.isPiecewise q) d =
      t.get 0 (row type.isUniform e) q d := by
    cases hpiecewise : type.isPiecewise with
    | true =>
      exact (h.pointFree hpiecewise _ q d ⟨hin.permutation, hin.entity, hhas.point, hhas.dof⟩).symm
    | false => rfl
  rw [hq]
  cases huniform : type.isUniform with
  | true => exact (h.entityFree huniform e q d hhas).symm
  | false => rfl

section Compressed

variable {type : TableType} (hp : t.shape.permutations = 1) (h : t.Is type)

include hp h

/-- The values of a compressed table are those of the table. -/
theorem constant_compress {v : R} : (t.compress type tol).Constant v ↔ t.Constant v := by
  constructor
  -- every value has a kept one in its place
  · intro hc p e q d hhas
    obtain rfl := hhas.permutation_eq hp
    obtain ⟨hrow, hget⟩ := compress_reads tol hp h hhas
    rw [← hget]
    exact hc _ _ _ _ hrow
  -- every kept value is one of the table
  · intro ht p e q d hhas
    obtain rfl := hhas.permutation_eq (by rw [shape_compress tol hp])
    obtain ⟨hin, hget⟩ := get_compress tol hp hhas
    rw [hget]
    exact ht _ _ _ _ hin

/-- Compressing a table of ones leaves ones, and no other table becomes one. -/
theorem ones_compress : (t.compress type tol).Ones ↔ t.Ones := by
  rw [Ones, Ones, constant_compress tol hp h, shape_compress tol hp]

/-- Values that depend on no point still do not, and no others come to. -/
theorem pointFree_compress : (t.compress type tol).PointFree ↔ t.PointFree := by
  constructor
  · intro hc e q d hhas
    obtain ⟨hrow, hget⟩ := compress_reads tol hp h hhas
    obtain ⟨-, hfirst⟩ := compress_reads tol hp h hhas.firstPoint
    -- the first point is read at row zero, whether rows of points are kept or not
    rw [← hget, ← hfirst, row_zero]
    exact hc _ _ _ hrow
  · intro ht e q d hhas
    obtain ⟨hin, hget⟩ := get_compress tol hp hhas
    rw [hget, (get_compress tol hp hhas.firstPoint).2]
    exact ht e q d hin

/-- Likewise for the entities. -/
theorem entityFree_compress : (t.compress type tol).EntityFree ↔ t.EntityFree := by
  constructor
  -- both values are read from kept rows
  · intro hc e q d hhas
    obtain ⟨hrow, hget⟩ := compress_reads tol hp h hhas
    obtain ⟨-, hfirst⟩ := compress_reads tol hp h hhas.firstEntity
    rw [← hget, ← hfirst, row_zero]
    exact hc _ _ _ hrow
  · intro ht e q d hhas
    obtain ⟨hin, hget⟩ := get_compress tol hp hhas
    rw [hget, (get_compress tol hp hhas.firstEntity).2]
    exact ht e q d hin

/-- A compressed table is the identity only if the table is, or if it is a single one. -/
theorem identity_of_compress (hc : (t.compress type tol).Identity) : t.Ones ∨ t.Identity := by
  obtain ⟨hsquare, hvalues⟩ := hc
  rw [shape_compress tol hp] at hsquare
  dsimp only at hsquare
  cases hpiecewise : type.isPiecewise with
  | false =>
    -- all points are kept
    right
    rw [hpiecewise, if_neg Bool.false_ne_true, Nat.min_self] at hsquare
    refine ⟨hsquare, fun p e q d hhas => ?_⟩
    obtain rfl := hhas.permutation_eq hp
    obtain ⟨hrow, hget⟩ := compress_reads tol hp h hhas
    rw [← hget, hvalues 0 _ _ d hrow, hpiecewise]
    rfl
  | true =>
    rw [hpiecewise, if_pos rfl] at hsquare
    rcases Nat.eq_zero_or_pos t.shape.points with hnone | hpoints
    · -- without points there are no values
      right
      refine ⟨by omega, fun p e q d hhas => ?_⟩
      have := hhas.point
      omega
    · -- one point is kept, so there is one dof, and its values are one
      left
      refine ⟨by omega, fun p e q d hhas => ?_⟩
      obtain rfl := hhas.permutation_eq hp
      obtain rfl : d = 0 := by
        have := hhas.dof
        omega
      obtain ⟨hrow, hget⟩ := compress_reads tol hp h hhas
      rw [← hget, hvalues 0 _ _ 0 hrow, hpiecewise]
      rfl

/-- A plain table stays plain: it becomes none of the simple ones. -/
theorem plain_compress (hplain : t.Plain) : (t.compress type tol).Plain where
  notZero hc := hplain.notZero ((constant_compress tol hp h).mp hc)
  notOnes hc := hplain.notOnes ((ones_compress tol hp h).mp hc)
  notIdentity hc := (identity_of_compress tol hp h hc).elim hplain.notOnes hplain.notIdentity

/-- What a type says of the values holds of the compressed values. -/
theorem is_compress : (t.compress type tol).Is type := by
  have hzero : (t.compress type tol).Constant Scalar.zero ↔ t.Constant Scalar.zero :=
    constant_compress tol hp h
  have hones := ones_compress tol hp h
  have hpoint := pointFree_compress tol hp h
  have hentity := entityFree_compress tol hp h
  -- what tells the types apart is the same before and after
  cases htype : type with
  | zeros =>
    subst htype
    exact hzero.mpr h
  | ones =>
    subst htype
    exact ⟨hzero.not.mpr h.1, hones.mpr h.2⟩
  | quadrature =>
    subst htype
    refine ⟨hzero.not.mpr h.1, hones.not.mpr h.2.1, ?_, fun p e q d hhas => ?_⟩
    · rw [shape_compress tol hp]
      exact (Nat.min_self _).trans h.2.2.1
    · obtain rfl := hhas.permutation_eq (by rw [shape_compress tol hp])
      obtain ⟨hin, hget⟩ := get_compress tol hp hhas
      rw [hget]
      exact h.2.2.2 0 e q d hin
  | fixed =>
    subst htype
    exact ⟨plain_compress tol hp h h.1, hpoint.mpr h.2.1, hentity.mpr h.2.2⟩
  | piecewise =>
    subst htype
    exact ⟨plain_compress tol hp h h.1, hpoint.mpr h.2.1, hentity.not.mpr h.2.2⟩
  | uniform =>
    subst htype
    exact ⟨plain_compress tol hp h h.1, hpoint.not.mpr h.2.1, hentity.mpr h.2.2⟩
  | varying =>
    subst htype
    exact ⟨plain_compress tol hp h h.1, hpoint.not.mpr h.2.1, hentity.not.mpr h.2.2⟩

end Compressed

/-- **Compression keeps the type.** -/
theorem classify_compress {tol : Tolerance R} (htol : tol.Exact) (hp : t.shape.permutations = 1) :
    (t.compress (t.classify tol) tol).classify tol = t.classify tol := by
  obtain ⟨type, h⟩ := exists_is t
  rw [classify_eq htol (by omega) h]
  refine classify_eq htol ?_ (is_compress tol hp h)
  rw [shape_compress tol hp]
  exact Nat.zero_lt_one

end Table

end WeakForm
