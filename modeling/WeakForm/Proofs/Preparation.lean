import WeakForm.Proofs.Classification
import WeakForm.Proofs.Stripping
import WeakForm.Table.Assembly

/-!
# Prepared tables

Without tolerances, nothing is lost when a table is made ready for use: clamping changes no
value, the columns that are cut off are zero, and the compressed table keeps all others.

* `clamp_eq` — clamping;
* `Table.strip_zero` — the columns that are not kept;
* `PreparedTable.Keeps`, `prepare_keeps` — where a prepared table keeps a value.
-/

namespace WeakForm

variable {R : Type} [Scalar R] {tol : Tolerance R}

/-! ## Clamping -/

/-- Nothing is snapped when equality is exact. -/
theorem snap_eq (htol : tol.Exact) (v : R) : Table.snap tol v = v := by
  unfold Table.snap
  cases hfound : [Scalar.zero, Scalar.one, Scalar.ofInt (-1)].find? (tol.isClose v) with
  | none => rfl
  | some w => exact ((htol.isClose v w).mp (List.find?_some hfound)).symm

/-- Nothing is clamped when equality is exact. -/
theorem clamp_eq (htol : tol.Exact) (t : Table R) : t.clamp tol = t := by
  have hvalues : t.values.map (Table.snap tol) = t.values := by
    rw [funext (snap_eq htol)]
    exact Array.map_id' t.values
  cases t with
  | mk shape values size_values =>
    unfold Table.clamp
    congr

/-! ## Zero columns -/

/-- The columns that are cut off are zero. -/
theorem Table.strip_zero (htol : tol.Exact) {t : Table R} {p e q d : Nat}
    (h : t.shape.Has p e q d) (hd : ¬((t.strip tol).start ≤ d ∧ d < (t.strip tol).stop)) :
    t.get p e q d = Scalar.zero := by
  have hzero := strip_outside t tol h.dof hd
  exact (htol.isNegligible _).mp (hzero p h.permutation e h.entity q h.point)

/-! ## Prepared tables -/

/-- Every value of a table is kept in the prepared one, at the row and the column that its
type and its range of columns tell, or is zero. -/
structure PreparedTable.Keeps (prepared : PreparedTable R) (tol : Tolerance R)
    (values : Table R) : Prop where
  type : prepared.table.classify tol = prepared.type
  zero : ∀ e q d, values.shape.Has 0 e q d → ¬(prepared.start ≤ d ∧ d < prepared.stop) →
    values.get 0 e q d = Scalar.zero
  kept : ∀ e q d, values.shape.Has 0 e q d → prepared.start ≤ d → d < prepared.stop →
    prepared.table.shape.Has 0 (Table.row prepared.type.isUniform e)
        (Table.row prepared.type.isPiecewise q) (d - prepared.start) ∧
      prepared.table.get 0 (Table.row prepared.type.isUniform e)
        (Table.row prepared.type.isPiecewise q) (d - prepared.start) = values.get 0 e q d
  ones : prepared.type = .ones → ∀ e q d, values.shape.Has 0 e q d → prepared.start ≤ d →
    d < prepared.stop → values.get 0 e q d = Scalar.one

/-- **A prepared table keeps every value.** -/
theorem prepare_keeps (htol : tol.Exact) {values : Table R}
    (hp : values.shape.permutations = 1) :
    (OptimizedTables.prepare tol values).Keeps tol values := by
  have hclamp := clamp_eq htol values
  obtain ⟨-, htable⟩ := Table.strip_kept values tol
  have hperm : (values.strip tol).table.shape.permutations = 1 := by
    rw [htable]
    exact hp
  -- the type is that of the columns that are kept
  obtain ⟨type, htype⟩ := Table.exists_is (values.strip tol).table
  have hclassify := Table.classify_eq htol (by omega) htype
  have hprepared : OptimizedTables.prepare tol values = {
      table := (values.strip tol).table.compress type tol
      type := type
      start := (values.strip tol).start
      stop := (values.strip tol).stop } := by
    rw [OptimizedTables.prepare, hclamp, hclassify]
  rw [hprepared]
  refine ⟨?_, ?_, ?_, ?_⟩
  -- compression changes no class
  · have hsame := Table.classify_compress htol hperm
    rwa [hclassify] at hsame
  -- a column that was stripped is zero
  · exact fun e q d hhas hd => Table.strip_zero htol hhas hd
  -- a column that was kept is read from the compressed table
  · intro e q d hhas hle hlt
    obtain ⟨hin, hget⟩ := Table.strip_reads tol hhas hle hlt
    obtain ⟨hrow, hread⟩ := Table.compress_reads tol hperm htype hin
    exact ⟨hrow, hread.trans hget⟩
  -- a table of ones has ones in every column kept
  · intro hones e q d hhas hle hlt
    obtain ⟨hin, hget⟩ := Table.strip_reads tol hhas hle hlt
    obtain rfl : type = .ones := hones
    rw [← hget]
    exact htype.2.2 0 e q _ hin

end WeakForm
