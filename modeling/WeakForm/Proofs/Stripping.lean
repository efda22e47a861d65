import WeakForm.Proofs.Rational
import WeakForm.Proofs.TablePlaces

/-!
# Stripping and padding

Two searches, one from each end, find the first and the last column of a table that is not
zero, or there is none. What lies between is kept whatever it is, zero columns included, so
padding the kept columns restores them, and stripping a padded table finds its columns again.

* `Table.Ends` — the first and the last column that is not zero;
* `strip_of_ends`, `strip_of_zero` — what stripping keeps, in both cases;
* `Table.Strips` — what padding restores of a table;
* `strip_pad_inverse` — stripping and padding are inverse to each other.
-/

namespace WeakForm.Table

variable {R : Type} [Scalar R] {t : Table R} {tol : Tolerance R}

/-- A column of values within the absolute tolerance. -/
def ZeroColumn (t : Table R) (tol : Tolerance R) (d : Nat) : Prop :=
  ∀ p < t.shape.permutations, ∀ e < t.shape.entities, ∀ q < t.shape.points,
    tol.isNegligible (t.get p e q d)

theorem isZeroColumn_iff_zeroColumn {d : Nat} : t.isZeroColumn tol d ↔ t.ZeroColumn tol d :=
  forRows_iff

/-- The first and the last column of a table that is not zero. -/
structure Ends (t : Table R) (tol : Tolerance R) (first last : Nat) : Prop where
  le : first ≤ last
  lt : last < t.shape.dofs
  firstKept : ¬t.ZeroColumn tol first
  lastKept : ¬t.ZeroColumn tol last
  before : ∀ d < first, t.ZeroColumn tol d
  after : ∀ d < t.shape.dofs, last < d → t.ZeroColumn tol d

/-! ## The two searches -/

/-- The search from the right meets no column after the one that it finds. -/
theorem find?_reverse_range' {start n last : Nat} {p : Nat → Bool}
    (h : (List.range' start n).reverse.find? p = some last) :
    p last ∧ start ≤ last ∧ last < start + n ∧ ∀ d, last < d → d < start + n → p d = false := by
  obtain ⟨hlast, before, after, hsplit, hnone⟩ := List.find?_eq_some_iff_append.mp h
  have hrange : ∀ d, d ∈ before ++ last :: after ↔ start ≤ d ∧ d < start + n := by
    intro d
    rw [← hsplit, List.mem_reverse, List.mem_range'_1]
  -- the search runs from the right
  have hsorted : (before ++ last :: after).Pairwise (· > ·) := by
    rw [← hsplit, List.pairwise_reverse]
    exact List.pairwise_lt_range'
  obtain ⟨hge, hlt⟩ := (hrange last).mp (by simp)
  refine ⟨hlast, hge, hlt, fun d hd hdn => ?_⟩
  -- a column further right comes before the last one in the search
  rcases List.mem_append.mp ((hrange d).mpr ⟨by omega, hdn⟩) with hmem | hmem
  · simpa using hnone d hmem
  · have hle : d ≤ last := by
      rcases List.mem_cons.mp hmem with rfl | hmem
      · exact Nat.le_refl _
      · exact ((List.pairwise_cons.mp (List.pairwise_append.mp hsorted).2.1).1 d hmem).le
    omega

/-- **What stripping does.** -/
theorem strip_cases (t : Table R) (tol : Tolerance R) :
    (∀ d < t.shape.dofs, t.ZeroColumn tol d) ∧
        t.strip tol = ⟨t.shape.dofs, t.shape.dofs, t.columns t.shape.dofs t.shape.dofs⟩ ∨
      ∃ first last, t.Ends tol first last ∧
        t.strip tol = ⟨first, last + 1, t.columns first (last + 1)⟩ := by
  have hzero : ∀ d, t.isZeroColumn tol d = false → ¬t.ZeroColumn tol d := by
    intro d hd hcolumn
    rw [isZeroColumn_iff_zeroColumn.mpr hcolumn] at hd
    cases hd
  cases hfirst : (List.range t.shape.dofs).find? fun d => !t.isZeroColumn tol d with
  | none =>
    -- all columns are zero, and nothing is kept
    refine .inl ⟨fun d hd => isZeroColumn_iff_zeroColumn.mp ?_, ?_⟩
    · simpa using List.find?_range_eq_none.mp hfirst d hd
    · simp only [strip, hfirst]
  | some first =>
    obtain ⟨hp, hmem, hbefore⟩ := List.find?_range_eq_some.mp hfirst
    have hlt := List.mem_range.mp hmem
    cases hlast : (List.range' first (t.shape.dofs - first)).reverse.find? fun d =>
        !t.isZeroColumn tol d with
    | none =>
      -- the search from the right comes to the first column, if not to one before
      have hnone := List.find?_eq_none.mp hlast first (by simp; omega)
      exact absurd hp hnone
    | some last =>
      -- the last column kept is at the first one or behind it
      obtain ⟨hq, hle, hend, hafter⟩ := find?_reverse_range' hlast
      refine .inr ⟨first, last, ?_, ?_⟩
      · exact {
          le := hle
          lt := by omega
          firstKept := hzero first (by simpa using hp)
          lastKept := hzero last (by simpa using hq)
          before := fun d hd => isZeroColumn_iff_zeroColumn.mp (by simpa using hbefore d hd)
          after := fun d hd hlast => isZeroColumn_iff_zeroColumn.mp
            (by simpa using hafter d hlast (by omega)) }
      · simp only [strip, hfirst, hlast, Option.map_some, Option.getD_some]

/-- The two columns are determined by the table. -/
theorem Ends.unique {first last first' last' : Nat} (h : t.Ends tol first last)
    (h' : t.Ends tol first' last') : first = first' ∧ last = last' := by
  -- neither end can lie beyond the other, where columns are zero
  have hle : last ≤ last' := by
    by_contra hlt
    exact h.lastKept (h'.after last h.lt (by omega))
  have hge : last' ≤ last := by
    by_contra hlt
    exact h'.lastKept (h.after last' h'.lt (by omega))
  have hbefore : first ≤ first' := by
    by_contra hlt
    exact h'.firstKept (h.before first' (by omega))
  have hafter : first' ≤ first := by
    by_contra hlt
    exact h.firstKept (h'.before first (by omega))
  omega

/-- A table with known ends is cut at them. -/
theorem strip_of_ends {first last : Nat} (h : t.Ends tol first last) :
    t.strip tol = ⟨first, last + 1, t.columns first (last + 1)⟩ := by
  rcases strip_cases t tol with ⟨hzero, -⟩ | ⟨first', last', h', hstrip⟩
  · exact absurd (hzero last h.lt) h.lastKept
  · obtain ⟨rfl, rfl⟩ := h.unique h'
    exact hstrip

/-- The columns that are kept are columns of the table. -/
theorem strip_kept (t : Table R) (tol : Tolerance R) :
    (t.strip tol).stop ≤ t.shape.dofs ∧
      (t.strip tol).table = t.columns (t.strip tol).start (t.strip tol).stop := by
  rcases strip_cases t tol with ⟨-, hstrip⟩ | ⟨first, last, hends, hstrip⟩
  · rw [hstrip]
    exact ⟨Nat.le_refl _, rfl⟩
  · rw [hstrip]
    exact ⟨hends.lt, rfl⟩

/-- Where a column is kept, its values are. -/
theorem strip_reads (tol : Tolerance R) {p e q d : Nat} (h : t.shape.Has p e q d)
    (hle : (t.strip tol).start ≤ d) (hlt : d < (t.strip tol).stop) :
    (t.strip tol).table.shape.Has p e q (d - (t.strip tol).start) ∧
      (t.strip tol).table.get p e q (d - (t.strip tol).start) = t.get p e q d := by
  obtain ⟨-, htable⟩ := strip_kept t tol
  -- the column is one of those kept
  have hin : (t.strip tol).table.shape.Has p e q (d - (t.strip tol).start) := by
    rw [htable]
    exact ⟨h.permutation, h.entity, h.point, Nat.sub_lt_sub_right hle hlt⟩
  refine ⟨hin, ?_⟩
  rw [htable] at hin ⊢
  have hget : (t.columns (t.strip tol).start (t.strip tol).stop).get p e q
      (d - (t.strip tol).start) = t.get p e q ((t.strip tol).start + (d - (t.strip tol).start)) :=
    get_ofFn hin
  rw [hget, Nat.add_sub_cancel' hle]

/-- The columns that are cut off are zero. -/
theorem strip_outside (t : Table R) (tol : Tolerance R) {d : Nat} (hd : d < t.shape.dofs)
    (hout : ¬((t.strip tol).start ≤ d ∧ d < (t.strip tol).stop)) : t.ZeroColumn tol d := by
  rcases strip_cases t tol with ⟨hzero, -⟩ | ⟨first, last, hends, hstrip⟩
  · exact hzero d hd
  · rw [hstrip] at hout
    by_cases hbefore : d < first
    · exact hends.before d hbefore
    · exact hends.after d hd (by dsimp only at hout; omega)

/-! ## Padding -/

variable {s : Table R} {start dofs : Nat}

/-- A padded table has its values in the range and zeros around it. -/
theorem get_pad {p e q d : Nat} (h : (s.pad start dofs).shape.Has p e q d) :
    (s.pad start dofs).get p e q d =
      if start ≤ d ∧ d < start + s.shape.dofs then s.get p e q (d - start) else Scalar.zero :=
  get_ofFn h

/-- A column outside of the range is zero. -/
theorem zeroColumn_pad_of_outside (h0 : tol.isNegligible (Scalar.zero : R)) {d : Nat}
    (hd : d < dofs) (hout : ¬(start ≤ d ∧ d < start + s.shape.dofs)) :
    (s.pad start dofs).ZeroColumn tol d := by
  intro p hp e he q hq
  rw [get_pad ⟨hp, he, hq, hd⟩, if_neg hout]
  exact h0

/-- A padded column keeps its values. -/
theorem zeroColumn_pad_add {d : Nat} (hd : d < s.shape.dofs)
    (hfits : start + s.shape.dofs ≤ dofs) :
    (s.pad start dofs).ZeroColumn tol (start + d) ↔ s.ZeroColumn tol d := by
  refine forall₂_congr fun p hp => forall₂_congr fun e he => forall₂_congr fun q hq => ?_
  have hhas : (s.pad start dofs).shape.Has p e q (start + d) :=
    ⟨hp, he, hq, show start + d < dofs by omega⟩
  rw [get_pad hhas, if_pos (by omega), Nat.add_sub_cancel_left]

/-- Columns of zeros are added before the first and after the last column. -/
theorem ends_pad (h0 : tol.isNegligible (Scalar.zero : R)) (hpos : 0 < s.shape.dofs)
    (hfirst : ¬s.ZeroColumn tol 0) (hlast : ¬s.ZeroColumn tol (s.shape.dofs - 1))
    (hfits : start + s.shape.dofs ≤ dofs) :
    (s.pad start dofs).Ends tol start (start + (s.shape.dofs - 1)) where
  le := by omega
  lt := by
    show start + (s.shape.dofs - 1) < dofs
    omega
  firstKept := by
    intro hzero
    exact hfirst ((zeroColumn_pad_add hpos hfits).mp hzero)
  lastKept := by
    intro hzero
    exact hlast ((zeroColumn_pad_add (by omega) hfits).mp hzero)
  before d hd := zeroColumn_pad_of_outside h0 (by omega) (by omega)
  after d hd hlt := zeroColumn_pad_of_outside h0 hd (by omega)

/-- The columns that were padded are the table. -/
theorem columns_pad (hfits : start + s.shape.dofs ≤ dofs) :
    (s.pad start dofs).columns start (start + s.shape.dofs) = s := by
  have hshape : ((s.pad start dofs).columns start (start + s.shape.dofs)).shape = s.shape := by
    show { s.shape with dofs := start + s.shape.dofs - start } = s.shape
    rw [Nat.add_sub_cancel_left]
  refine eq_of_get hshape fun p e q d hhas => ?_
  have hin := hshape ▸ hhas
  have hd := hin.dof
  -- the column stands behind those put in front
  have hpad : (s.pad start dofs).shape.Has p e q (start + d) :=
    ⟨hin.permutation, hin.entity, hin.point, show start + d < dofs by omega⟩
  calc ((s.pad start dofs).columns start (start + s.shape.dofs)).get p e q d
      = (s.pad start dofs).get p e q (start + d) := get_ofFn hhas
    _ = s.get p e q d := by rw [get_pad hpad, if_pos (by omega), Nat.add_sub_cancel_left]

/-! ## The round trips -/

/-- A range of columns of a table, and the table again once they are padded. -/
structure Strips (t : Table R) (tol : Tolerance R) (kept : Stripped R) : Prop where
  outside : ∀ d < t.shape.dofs, ¬(kept.start ≤ d ∧ d < kept.stop) → t.ZeroColumn tol d
  /-- The range starts and ends with a column that is not zero, or all columns are zero. -/
  ends : kept.start < kept.stop ∧ kept.stop ≤ t.shape.dofs ∧
      ¬t.ZeroColumn tol kept.start ∧ ¬t.ZeroColumn tol (kept.stop - 1) ∨
    kept.start = t.shape.dofs ∧ kept.stop = t.shape.dofs ∧
      ∀ d < t.shape.dofs, t.ZeroColumn tol d
  shape : (kept.table.pad kept.start t.shape.dofs).shape = t.shape
  restores : ∀ p e q d, t.shape.Has p e q d →
    (kept.table.pad kept.start t.shape.dofs).get p e q d =
      if kept.start ≤ d ∧ d < kept.stop then t.get p e q d else Scalar.zero

/-- Padding restores what stripping keeps. -/
theorem strips_strip (t : Table R) (tol : Tolerance R) : t.Strips tol (t.strip tol) := by
  obtain ⟨hstop, htable⟩ := strip_kept t tol
  have hends : (t.strip tol).start < (t.strip tol).stop ∧ (t.strip tol).stop ≤ t.shape.dofs ∧
      ¬t.ZeroColumn tol (t.strip tol).start ∧ ¬t.ZeroColumn tol ((t.strip tol).stop - 1) ∨
      (t.strip tol).start = t.shape.dofs ∧ (t.strip tol).stop = t.shape.dofs ∧
        ∀ d < t.shape.dofs, t.ZeroColumn tol d := by
    -- everything is zero, or there are a first and a last column to keep
    rcases strip_cases t tol with ⟨hzero, hstrip⟩ | ⟨first, last, hends, hstrip⟩
    · rw [hstrip]
      exact .inr ⟨rfl, rfl, hzero⟩
    · rw [hstrip]
      exact .inl ⟨Nat.lt_succ_of_le hends.le, hends.lt, hends.firstKept, hends.lastKept⟩
  -- the kept columns are as many as the range is long
  have hwidth : (t.strip tol).start + (t.strip tol).table.shape.dofs = (t.strip tol).stop := by
    have hle : (t.strip tol).start ≤ (t.strip tol).stop := by
      rcases hends with ⟨hlt, -⟩ | ⟨hstart, hstop, -⟩
      · exact hlt.le
      · exact (hstart.trans hstop.symm).le
    rw [htable]
    exact Nat.add_sub_cancel' hle
  have hshape : ((t.strip tol).table.pad (t.strip tol).start t.shape.dofs).shape = t.shape := by
    rw [htable]
    rfl
  refine ⟨fun d hd hout => strip_outside t tol hd hout, hends, hshape, ?_⟩
  intro p e q d hhas
  rw [get_pad (hshape.symm ▸ hhas), hwidth]
  -- inside of the range the values are kept, and outside they are zero
  split
  · next hin => exact (strip_reads tol hhas hin.1 hin.2).2
  · rfl

/-- **Stripping and padding are inverse.** Padding the columns that stripping keeps restores
the table, but for values within the tolerance; and stripping a padded table finds its
columns. Zero is within every tolerance that is not negative. -/
theorem strip_pad_inverse (tol : Tolerance R) (h0 : tol.isNegligible (Scalar.zero : R)) :
    (∀ t : Table R, t.Strips tol (t.strip tol)) ∧
    ∀ (s : Table R) (start dofs : Nat), 0 < s.shape.dofs → ¬s.ZeroColumn tol 0 →
      ¬s.ZeroColumn tol (s.shape.dofs - 1) → start + s.shape.dofs ≤ dofs →
      (s.pad start dofs).strip tol = ⟨start, start + s.shape.dofs, s⟩ := by
  refine ⟨fun t => strips_strip t tol, ?_⟩
  intro s start dofs hpos hfirst hlast hfits
  have hstrip := strip_of_ends (ends_pad h0 hpos hfirst hlast hfits)
  have hend : start + (s.shape.dofs - 1) + 1 = start + s.shape.dofs := by omega
  rw [hend, columns_pad hfits] at hstrip
  exact hstrip

/-- Three columns, the middle one of zeros. -/
def interiorZero : Table ℚ where
  shape := { permutations := 1, entities := 1, points := 2, dofs := 3 }
  values := #[1, 0, 0, 1, 0, 2]
  size_values := rfl

/-- A table with a zero column inside survives padding and stripping. -/
theorem strip_pad_inverse_interior :
    (⟨0, 0⟩ : Tolerance ℚ).isNegligible (Scalar.zero : ℚ) ∧
    interiorZero.Strips ⟨0, 0⟩ (interiorZero.strip ⟨0, 0⟩) ∧
    (interiorZero.pad 1 5).strip ⟨0, 0⟩ = ⟨1, 4, interiorZero⟩ :=
  have h0 : (⟨0, 0⟩ : Tolerance ℚ).isNegligible (Scalar.zero : ℚ) := by decide
  have hfirst : ¬interiorZero.ZeroColumn ⟨0, 0⟩ 0 :=
    fun hzero => absurd (hzero 0 (by decide) 0 (by decide) 0 (by decide)) (by decide)
  have hlast : ¬interiorZero.ZeroColumn ⟨0, 0⟩ 2 :=
    fun hzero => absurd (hzero 0 (by decide) 0 (by decide) 1 (by decide)) (by decide)
  have hinverse := strip_pad_inverse ⟨0, 0⟩ h0
  ⟨h0, hinverse.1 interiorZero, hinverse.2 interiorZero 1 5 (by decide) hfirst hlast (by decide)⟩

end WeakForm.Table
