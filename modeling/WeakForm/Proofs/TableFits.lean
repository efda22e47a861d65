import WeakForm.Proofs.Compression
import WeakForm.Proofs.Deduplication
import WeakForm.Proofs.Preparation
import WeakForm.Proofs.RawValues
import WeakForm.Proofs.References

/-!
# Tables fit their references

A reference names the table that is kept for a terminal, and tells how to address it: how many
columns there are, and along which axes there is a single row. The columns and the permutations
are those of the terminal's own table, while the type is that of the table which is kept, and
that one was compressed by its type. A table counts as equal to tables of its shape only, so all
of this holds of the table that is kept, whatever the tolerances are.

* `TableReference.Fits` — a table has the lengths that a reference tells;
* `prepare_shaped` — the lengths of a prepared table;
* `build_fits` — the table that a reference names is there, and fits;
* `build_ofPoints` — the names of the tables at so many points.
-/

namespace WeakForm

variable {R : Type}

/-- The table has the lengths that a reference tells. -/
structure TableReference.Fits (t : TableReference) (table : Table R) : Prop where
  dofs : table.shape.dofs = t.dofmap.length
  points : t.isPiecewise → table.shape.points = 1
  entities : t.isUniform → table.shape.entities = 1
  permutations : 1 < table.shape.permutations ↔ t.isPermuted

/-- The lengths of a table that is ready for use. One that is zero may have no rows at all. -/
structure PreparedTable.Shaped (p : PreparedTable R) : Prop where
  dofs : p.table.shape.dofs = p.stop - p.start
  points : p.type ≠ .zeros → p.type.isPiecewise → p.table.shape.points = 1
  entities : p.type ≠ .zeros → p.type.isUniform → p.table.shape.entities = 1

section Prepare

variable [Scalar R] {tol : Tolerance R}

/-- A table of another type than zero has a position. -/
theorem Table.exists_has {t : Table R} (h : t.classify tol ≠ .zeros) :
    ∃ p e q d, t.shape.Has p e q d := by
  by_contra hnone
  refine h ?_
  have hempty : t.values.isEmpty := Table.values_isEmpty.mpr fun p e q d hhas =>
    hnone ⟨p, e, q, d, hhas⟩
  rw [Table.classify, hempty, Bool.true_or, if_pos rfl]

/-- **The lengths of a prepared table.** -/
theorem prepare_shaped (tol : Tolerance R) (values : Table R) :
    (OptimizedTables.prepare tol values).Shaped := by
  obtain ⟨-, htable⟩ := Table.strip_kept (values.clamp tol) tol
  have hone : ∀ {n : Nat} {b : Bool}, 0 < n → b → min (if b then 1 else n) n = 1 := by
    intro n b hn hb
    rw [if_pos hb]
    exact Nat.min_eq_left hn
  refine ⟨?_, fun htype hpiecewise => ?_, fun htype huniform => ?_⟩
  · -- compression keeps all columns
    show ((values.clamp tol).strip tol).table.shape.dofs = _
    rw [htable]
    rfl
  -- a piecewise table keeps one point
  · obtain ⟨p, e, q, d, hhas⟩ := Table.exists_has htype
    exact hone (Nat.zero_lt_of_lt hhas.point) hpiecewise
  -- a uniform table keeps one entity
  · obtain ⟨p, e, q, d, hhas⟩ := Table.exists_has htype
    exact hone (Nat.zero_lt_of_lt hhas.entity) huniform

end Prepare

namespace OptimizedTables

variable [DecidableEq R] {points : Nat} {type : IntegralType} {d : Domain}
  {elements : ElementNumbering} {basis : BasisValues R} {tol : Tolerance R}
  {terminals : List (ModifiedTerminal R)} {overflow : Overflow} {tables : OptimizedTables R}

omit [DecidableEq R] in
/-- The types are those of the tables that are kept. -/
theorem getElem?_types {prepared : Std.TreeMap String (PreparedTable R)}
    {kept : String → Bool} {name : String} {t : TableType} :
    ((prepared.filter fun name _ => kept name).map fun _ p => p.type)[name]? = some t ↔
      kept name ∧ ∃ p, prepared[name]? = some p ∧ p.type = t := by
  rw [Std.TreeMap.getElem?_map, Std.TreeMap.getElem?_filter']
  simp only [Option.map_eq_some_iff, Option.filter_eq_some_iff]
  constructor
  · rintro ⟨p, ⟨hp, hkept⟩, htype⟩
    exact ⟨hkept, p, hp, htype⟩
  · rintro ⟨hkept, p, hp, htype⟩
    exact ⟨p, ⟨hp, hkept⟩, htype⟩

variable [Scalar R]

/-- **A reference names a table that is there**, whose type is that of the reference. Unless it is
zero it fits. -/
theorem build_fits (h : build points type d terminals elements basis tol overflow = .ok tables)
    {key : Descriptor R} {r : TableReference} (hr : tables.references[key]? = some r) :
    tables.types[r.name]? = some r.type ∧
      ∃ table, tables.unique[r.name]? = some table ∧ (r.type ≠ .zeros → r.Fits table) := by
  obtain ⟨named, hnamed, hunique, htypes, hreferences⟩ := build_ok h
  rw [hreferences] at hr
  obtain ⟨entry, -, -, hr⟩ := references_spec hr
  obtain ⟨own, keptName, kept, hown, hcanonical, hkept, rfl⟩ := reference_spec hr
  -- the name kept has the table that this one was merged into
  obtain ⟨table, htable, hfiled, hstands⟩ :=
    Table.mergeNamed_stands (getElem?_prepared hown) hcanonical
  obtain rfl : kept.table = table :=
    Option.some.inj ((getElem?_prepared hkept).symm.trans htable)
  rw [← hunique] at hfiled
  have hmem : tables.unique.contains keptName := by
    rw [Std.TreeMap.contains_iff_mem, Std.TreeMap.mem_iff_isSome_getElem?, hfiled]
    rfl
  refine ⟨?_, kept.table, hfiled, fun hne => ?_⟩
  -- the type is filed under the name that is kept
  · rw [htypes]
    exact getElem?_types.mpr ⟨hmem, kept, hkept, rfl⟩
  · -- both tables are prepared, and they have one shape
    have hshaped : ∀ {name : String} {p : PreparedTable R}, named.1[name]? = some p →
        p.Shaped := by
      intro name p hp
      obtain ⟨m, s, values, -, -, rfl⟩ := hnamed.tables name p hp
      exact prepare_shaped tol values
    have hshape := hstands.shape
    exact {
      dofs := by rw [hshape, (hshaped hown).dofs, List.length_range']
      points := (hshaped hkept).points hne
      entities := (hshaped hkept).entities hne
      permutations := by rw [hshape, decide_eq_true_iff] }

/-- **The tables have names at the given number of points**, those that are kept and those that
have a type. -/
theorem build_ofPoints
    (h : build points type d terminals elements basis tol overflow = .ok tables) :
    (∀ name ∈ tables.unique, OfPoints points name) ∧
      ∀ name ∈ tables.types, OfPoints points name := by
  obtain ⟨named, hnamed, hunique, htypes, -⟩ := build_ok h
  -- every prepared table has the name of a source at these points
  have hprepared : ∀ {name : String} {p : PreparedTable R}, named.1[name]? = some p →
      OfPoints points name := by
    intro name p hp
    obtain ⟨m, s, values, hname, -, -⟩ := hnamed.tables name p hp
    obtain ⟨ordinal, -, rfl⟩ := sourceName_ok hname.name
    exact ofPoints_tableName ordinal s.component s.frame s.derivatives m.averaged type.entityType
      points
  refine ⟨fun name hname => ?_, fun name hname => ?_⟩
  · -- what is kept is one of the prepared tables
    have hkept := (Table.mergeNamed_merging tol (named.1.map fun _ p => p.table)).unique
    rw [← hunique] at hkept
    obtain ⟨t, ht⟩ :=
      Option.isSome_iff_exists.mp (Std.TreeMap.mem_iff_isSome_getElem?.mp hname)
    have hgiven := hkept name t ht
    rw [Std.TreeMap.getElem?_map] at hgiven
    obtain ⟨p, hp, -⟩ := Option.map_eq_some_iff.mp hgiven
    exact hprepared hp
  -- and types are filed for kept tables only
  · rw [Std.TreeMap.mem_iff_isSome_getElem?, htypes] at hname
    obtain ⟨t, ht⟩ := Option.isSome_iff_exists.mp hname
    obtain ⟨-, p, hp, -⟩ := getElem?_types.mp ht
    exact hprepared hp

end OptimizedTables

end WeakForm
