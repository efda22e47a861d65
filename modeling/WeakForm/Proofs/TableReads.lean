import WeakForm.Proofs.Deduplication
import WeakForm.Proofs.Preparation
import WeakForm.Proofs.RawValues
import WeakForm.Proofs.References

/-!
# Reading tables

Generated code reads the value of a terminal through its reference: zero outside of the
columns of the table, one where the table holds nothing but ones, and otherwise what the kept
table holds at the row of the entity, the row of the point and the column of the dof. Without
tolerances, with one permutation of every source and less than ten derivatives along each
direction, this is the value that the source has there.

* `OptimizedTables.read?` — the value that is read;
* `TableSource.Simple` — what is asked of a source;
* `own_prepared` — the table of a name is that of each terminal with the name;
* `kept_prepared` — the table that is kept for it has its values and its type;
* `read_basis` — what is read is the value of the source.
-/

namespace WeakForm

instance (s : TableShape) (p e q d : Nat) : Decidable (s.Has p e q d) :=
  decidable_of_iff (p < s.permutations ∧ e < s.entities ∧ q < s.points ∧ d < s.dofs)
    ⟨fun h => ⟨h.1, h.2.1, h.2.2.1, h.2.2.2⟩, fun h => ⟨h.permutation, h.entity, h.point, h.dof⟩⟩

namespace OptimizedTables

variable {R : Type} [DecidableEq R] [Scalar R]

/-- The value that generated code reads through a reference, for an entity, a point and a dof.
There is none where the kept table has no such position. -/
def read? (tables : OptimizedTables R) (r : TableReference) (e q dof : Nat) : Option R :=
  if ¬(r.start ≤ dof ∧ dof < r.stop) then some Scalar.zero
  else if r.type = .ones then some Scalar.one
  else do
    let table ← tables.unique[r.name]?
    let row := Table.row r.isUniform e
    let point := Table.row r.isPiecewise q
    if table.shape.Has 0 row point (dof - r.start) then table.get? 0 row point (dof - r.start)
    else none

end OptimizedTables

section

variable {R : Type} [DecidableEq R] [Scalar R] {points : Nat} {type : IntegralType} {d : Domain}
  {elements : ElementNumbering} {basis : BasisValues R} {tol : Tolerance R}
  {terminals : List (ModifiedTerminal R)}

/-- A source has one permutation on every entity, and less than ten derivatives along each
direction. -/
structure TableSource.Simple (s : TableSource) (points : Nat) (type : IntegralType) (d : Domain)
    (averaged : Option Averaging) (basis : BasisValues R) : Prop where
  single : ∀ e < entities averaged type d, (basis.get (s.key points averaged e)).length = 1
  counts : ∀ n ∈ s.derivatives, n ≤ 9

namespace OptimizedTables

/-- Every source of the terminals is simple. -/
def SimpleSources (points : Nat) (type : IntegralType) (d : Domain)
    (terminals : List (ModifiedTerminal R)) (basis : BasisValues R) : Prop :=
  ∀ m ∈ terminals, ∀ s, m.tableSource d = .ok (some s) → s.Simple points type d m.averaged basis

omit [DecidableEq R] in
/-- A prepared table holds the values of every terminal with its name. -/
theorem own_prepared {named : Named R} {m : ModifiedTerminal R} {s : TableSource} {name : String}
    {p : PreparedTable R} (hsimple : SimpleSources points type d terminals basis)
    (hprepared : Prepared points type d elements basis tol terminals .checked named)
    (hnamed : IsNamed points type d elements terminals .checked m s name)
    (hp : named.1[name]? = some p) :
    ∃ values, s.Files points type d m.averaged basis values ∧ p = prepare tol values := by
  obtain ⟨m', s', values, hnamed', hassemble, rfl⟩ := hprepared.tables name p hp
  have hs := hsimple m hnamed.mem s hnamed.source
  have hs' := hsimple m' hnamed'.mem s' hnamed'.source
  -- the terminal that the table was assembled for has the same source
  obtain ⟨rfl, haveraged⟩ := sourceName_injective
    (ModifiedTerminal.tableSource_counts hnamed.source)
    (ModifiedTerminal.tableSource_counts hnamed'.source) hs.counts hs'.counts hnamed.name
    hnamed'.name
  rw [← haveraged] at hassemble
  exact ⟨values, TableSource.assemble_files hs.single hassemble, rfl⟩

omit [DecidableEq R] in
/-- The type of a prepared table is that of its values. -/
theorem classify_prepared (htol : tol.Exact) {named : Named R} {name : String} {p : PreparedTable R}
    (hsimple : SimpleSources points type d terminals basis)
    (hprepared : Prepared points type d elements basis tol terminals .checked named)
    (hp : named.1[name]? = some p) : p.table.classify tol = p.type := by
  obtain ⟨m, s, -, hnamed, -, -⟩ := hprepared.tables name p hp
  obtain ⟨values, hfiles, rfl⟩ := own_prepared hsimple hprepared hnamed hp
  exact (prepare_keeps htol hfiles.permutations).type

omit [DecidableEq R] in
/-- The table that is kept for a name is its own table, and has the type of it. -/
theorem kept_prepared (htol : tol.Exact) {named : Named R} {name keptName : String}
    {own kept : PreparedTable R} (hsimple : SimpleSources points type d terminals basis)
    (hprepared : Prepared points type d elements basis tol terminals .checked named)
    (hown : named.1[name]? = some own) (hkept : named.1[keptName]? = some kept)
    (hcanonical : (Table.mergeNamed tol (named.1.map fun _ p => p.table)).canonical[name]? =
      some keptName) :
    (Table.mergeNamed tol (named.1.map fun _ p => p.table)).unique[keptName]? = some own.table ∧
      kept.type = own.type := by
  obtain ⟨hfirst, hunique⟩ :=
    Table.mergeNamed_canonical htol (getElem?_prepared hown) hcanonical
  have hsame : kept.table = own.table :=
    Option.some.inj ((getElem?_prepared hkept).symm.trans hfirst)
  refine ⟨hunique, ?_⟩
  rw [← classify_prepared htol hsimple hprepared hkept, hsame,
    classify_prepared htol hsimple hprepared hown]

/-- **Generated code reads the values of the source**: for every entity, point and dof that
values are filed for, the one of the terminal's component is read through its reference. -/
theorem read_basis [Field R] [LinearOrder R] [IsStrictOrderedRing R] (hR : Scalar.IsField R)
    {tables : OptimizedTables R}
    (h : build points type d terminals elements basis ⟨0, 0⟩ = .ok tables)
    (hsimple : SimpleSources points type d terminals basis) {m : ModifiedTerminal R}
    {r : TableReference} (hr : tables.references[m.toDescriptor]? = some r) :
    ∃ s, m.tableSource d = .ok (some s) ∧
      ∀ e < TableSource.entities m.averaged type d,
        ∃ t, basis.get (s.key points m.averaged e) = [t] ∧
          ∀ q < t.points, ∀ dof < t.dofs, ∃ v, t.get? dof (s.component.getD 0) q = some v ∧
            tables.read? r e q dof = some v := by
  have htol := Tolerance.exact_zero hR
  obtain ⟨named, hprepared, hunique, -, hreferences⟩ := build_ok h
  rw [hreferences] at hr
  -- the reference was made for a terminal with this descriptor
  obtain ⟨⟨m', name⟩, hentry, hkey, hr⟩ := references_spec hr
  obtain ⟨s, hnamed⟩ := hprepared.names _ hentry
  obtain ⟨own, keptName, kept, hown, hcanonical, hkept, rfl⟩ := reference_spec hr
  obtain ⟨hkeptTable, htype⟩ := kept_prepared htol hsimple hprepared hown hkept hcanonical
  -- its own table was assembled from the basis values, and then prepared
  obtain ⟨values, hfiles, rfl⟩ := own_prepared hsimple hprepared hnamed hown
  have hkeeps := prepare_keeps htol hfiles.permutations
  have haveraged : m'.averaged = m.averaged := congrArg Descriptor.averaged hkey
  rw [haveraged] at hfiles
  -- the source depends on the descriptor alone
  refine ⟨s, ModifiedTerminal.tableSource_congr hkey hnamed.source, fun e he => ?_⟩
  obtain ⟨t, ht, hvalues⟩ := hfiles.filed e he
  refine ⟨t, ht, fun q hq dof hdof => ?_⟩
  obtain ⟨hhas, hv⟩ := hvalues q hq dof hdof
  refine ⟨values.get 0 e q dof, hv, ?_⟩
  unfold read?
  by_cases hin : (prepare ⟨0, 0⟩ values).start ≤ dof ∧ dof < (prepare ⟨0, 0⟩ values).stop
  · rw [if_neg (not_not_intro hin)]
    by_cases hones : (prepare ⟨0, 0⟩ values).type = .ones
    · rw [if_pos (htype.trans hones), hkeeps.ones hones e q dof hhas hin.1 hin.2]
    · -- the kept table is read where the terminal's own table has the value
      obtain ⟨hposition, hread⟩ := hkeeps.kept e q dof hhas hin.1 hin.2
      rw [if_neg fun hkeptOnes => hones (htype.symm.trans hkeptOnes), hunique, hkeptTable, htype]
      show (if _ then _ else none) = _
      rw [if_pos hposition, Table.get?_eq_get hposition, hread]
  -- a column that was stripped is read as zero
  · rw [if_pos hin, hkeeps.zero e q dof hhas hin]

end OptimizedTables

end

/-! ### A test function at the vertices of a triangle -/

/-- The scalars of the rationals are those of a field. -/
theorem Scalar.isField_rational : Scalar.IsField ℚ where
  ofInt _ := rfl
  add _ _ := rfl
  sub _ _ := rfl
  mul _ _ := rfl
  abs _ := rfl
  le _ _ := decide_eq_true_iff

namespace VertexTest

open SingleTest (descriptor)
open ScaledTest OptimizedTables

/-- The sources of the vertex integral have a table at each vertex. -/
theorem simpleSources : SimpleSources 1 .vertex domain [volumeDescriptor, descriptor] basis := by
  intro m hm s hs
  rcases List.mem_pair.mp hm with rfl | rfl
  · -- the volume has no source
    have hsource : volumeDescriptor.tableSource domain = .ok none := by cbv
    cases hsource.symm.trans hs
  -- the test function has one, with a basis table at every vertex
  · have hsource : descriptor.tableSource domain = .ok (some source) := by cbv
    obtain rfl : source = s := Option.some.inj (Except.ok.inj (hsource.symm.trans hs))
    refine ⟨fun e he => ?_, by decide⟩
    have hkey : source.key 1 descriptor.averaged e = key e := rfl
    rw [hkey, basis_get he]
    rfl

end VertexTest

/-- At each vertex, the value of each of the three basis functions is read. -/
theorem OptimizedTables.read_basis_vertexTest :
    ∃ s, SingleTest.descriptor.tableSource VertexTest.domain = .ok (some s) ∧
      ∀ e < TableSource.entities SingleTest.descriptor.averaged .vertex VertexTest.domain,
        ∃ t, VertexTest.basis.get (s.key 1 SingleTest.descriptor.averaged e) = [t] ∧
          ∀ q < t.points, ∀ dof < t.dofs, ∃ v, t.get? dof (s.component.getD 0) q = some v ∧
            VertexTest.tables.read? VertexTest.reference e q dof = some v :=
  read_basis Scalar.isField_rational VertexTest.build_tables VertexTest.simpleSources
    VertexTest.reference_test

end WeakForm
