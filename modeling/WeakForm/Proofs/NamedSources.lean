import WeakForm.Proofs.Descriptors
import WeakForm.Proofs.RawValues
import WeakForm.Proofs.References

/-!
# Sources of one name

Terminals with one name share a table, which is assembled once, for the first of them. Their
sources agree but for the derivative counts: the name has the digits of all counts in a row, so
it tells the counts exactly where these have the same widths. A build without checks for overflow
counts modulo 256, and there the frame of derivatives whose counts are zero is not told either.

* `source_of_name` — what terminals with one name have in common;
* `elementSource_wrapping` — a function and its derivatives of order 256, counted without checks;
* `build_pair` — the table of two terminals with one name;
* `Slopes` — derivatives of a function along directions of a triangle.
-/

namespace WeakForm

namespace OptimizedTables

variable {R : Type} [DecidableEq R] [Scalar R] {points : Nat} {type : IntegralType} {d : Domain}
  {terminals : List (ModifiedTerminal R)} {elements : ElementNumbering} {basis : BasisValues R}
  {tol : Tolerance R} {overflow : Overflow} {tables : OptimizedTables R}
  {m m' : ModifiedTerminal R} {r r' : TableReference}

/-- What is referred to is read from a source whose name the reference has. -/
theorem source_of_reference
    (h : build points type d terminals elements basis tol overflow = .ok tables)
    (hr : tables.references[m.toDescriptor]? = some r) :
    ∃ s, m.tableSource d overflow = .ok (some s) ∧
      (sourceName s m.averaged elements type points : Result R String) = .ok r.source := by
  obtain ⟨named, hnamed, -, -, hreferences⟩ := build_ok h
  rw [hreferences] at hr
  obtain ⟨entry, hentry, hkey, hr⟩ := references_spec hr
  obtain ⟨s, hs⟩ := hnamed.names entry hentry
  -- the reference is that of a terminal with the same descriptor, under its name
  have hsource : r.source = entry.2 := by
    obtain ⟨own, keptName, kept, -, -, -, rfl⟩ := reference_spec hr
    rfl
  have haveraged : entry.1.averaged = m.averaged := congrArg Descriptor.averaged hkey
  refine ⟨s, ModifiedTerminal.tableSource_congr hkey hs.source, ?_⟩
  rw [hsource, ← haveraged]
  exact hs.name

/-- **Terminals with one name** have one element, component and averaging, and one frame of
derivatives if any is counted or the build checks for overflow. They have the same derivative
counts exactly where the counts have the same widths, and these are counts of equally many
derivatives along every direction, modulo 256 in a build without checks. -/
theorem source_of_name
    (h : build points type d terminals elements basis tol overflow = .ok tables)
    (hr : tables.references[m.toDescriptor]? = some r)
    (hr' : tables.references[m'.toDescriptor]? = some r') (hname : r.source = r'.source) :
    ∃ s s', m.tableSource d overflow = .ok (some s) ∧ m'.tableSource d overflow = .ok (some s') ∧
      s.element = s'.element ∧ s.component = s'.component ∧ m.averaged = m'.averaged ∧
      (overflow = .checked ∨ (∃ n ∈ s.derivatives ++ s'.derivatives, n ≠ 0) →
        s.frame = s'.frame) ∧
      (SameWidths s.derivatives s'.derivatives ↔ s.derivatives = s'.derivatives) ∧
      (s.derivatives = s'.derivatives → overflow.SameCounts m.derivatives m'.derivatives) := by
  obtain ⟨s, hs, hsname⟩ := source_of_reference h hr
  obtain ⟨s', hs', hsname'⟩ := source_of_reference h hr'
  rw [← hname] at hsname'
  have hcounts := ModifiedTerminal.tableSource_counts hs
  have hcounts' := ModifiedTerminal.tableSource_counts hs'
  obtain ⟨helement, hcomponent, haveraged, hframe, hwidths⟩ :=
    sourceName_tells hcounts hcounts' hsname hsname'
  refine ⟨s, s', hs, hs', helement, hcomponent, haveraged, hframe, hwidths, fun heq => ?_⟩
  exact hcounts.sameCounts (heq ▸ hcounts')

omit [DecidableEq R] [Scalar R] in
/-- **Without checks for overflow, 256 derivatives leave no trace in a name.** The sources of a
function and of its derivative, 256 times along one physical direction, have different frames,
and no element numbering, integral type or number of points makes their names differ. -/
theorem elementSource_wrapping {m : Descriptor R} (e : Element) {k : Nat} (hk : k < d.gdim)
    (hphysical : m.physical = []) (hreference : m.reference = []) :
    ∃ s s', m.elementSource d e .wrapping = .ok s ∧
      { m with physical := List.replicate 256 k }.elementSource d e .wrapping = .ok s' ∧
      s.frame ≠ s'.frame ∧ ∀ averaged elements type points,
        (sourceName s averaged elements type points : Result R String) =
          sourceName s' averaged elements type points := by
  -- the count of 256 derivatives in one direction wraps to zero
  have hmany : (derivativeCounts (List.replicate 256 k) d.gdim .wrapping : Checked R _) =
      .ok (List.replicate d.gdim 0) := by
    rw [← List.append_nil (List.replicate 256 k), derivativeCounts_wrapping hk]
    exact derivativeCounts_nil
  -- without derivatives the frame is the reference cell
  have hframe : m.derivativeFrame d .wrapping = .ok (.reference, List.replicate d.tdim 0) := by
    rw [Descriptor.derivativeFrame, hphysical, hreference, derivativeCounts_nil]
    rfl
  -- with physical derivatives it is the physical cell, whatever their counts
  have hframe' : { m with physical := List.replicate 256 k }.derivativeFrame d .wrapping =
      .ok (.physical, List.replicate d.gdim 0) := by
    rw [Descriptor.derivativeFrame]
    dsimp only
    rw [hmany]
    rfl
  have hframes : Frame.reference ≠ .physical := by decide
  refine ⟨_, _, bind_eq_ok.mpr ⟨_, hframe, rfl⟩, bind_eq_ok.mpr ⟨_, hframe', rfl⟩, hframes, ?_⟩
  -- the counts are zero, so nothing of them is written
  intro averaged elements type points
  have hzero (dim : Nat) : (List.replicate dim 0).all (· == 0) := by simp
  simp only [sourceName, tableName, hzero, if_true]
  rfl

/-- Terminals with one name have one reference, to the table of the first. -/
theorem build_pair {s s' : TableSource} {name : String} {values : Table R}
    (hs : m.tableSource d overflow = .ok (some s))
    (hs' : m'.tableSource d overflow = .ok (some s'))
    (hname : (sourceName s m.averaged elements type points : Result R String) = .ok name)
    (hname' : (sourceName s' m'.averaged elements type points : Result R String) = .ok name)
    (hvalues : s.assemble points type d m.averaged basis = .ok values)
    {prepared : Std.TreeMap String (PreparedTable R)}
    (hprepared : prepared =
      (∅ : Std.TreeMap String (PreparedTable R)).insert name (prepare tol values))
    (hr : reference prepared (Table.mergeNamed tol
      (prepared.map fun _ (p : PreparedTable R) => p.table)).canonical name = some r) :
    ∃ tables, build points type d [m, m'] elements basis tol overflow = .ok tables ∧
      tables.references[m.toDescriptor]? = some r ∧
      tables.references[m'.toDescriptor]? = some r := by
  have hnew : (∅ : Std.TreeMap String (PreparedTable R)).contains name = false := by simp
  have hknown : prepared.contains name := by rw [hprepared, Std.TreeMap.contains_insert_self]
  -- the first terminal is assembled under the name
  have hfirst : addTerminal points type d elements basis tol overflow (∅, []) m =
      .ok (prepared, [(m, name)]) := hprepared ▸ addTerminal_new hs hname hnew hvalues
  -- the second terminal finds the name, so its own values are not looked at
  have hsecond : addTerminal points type d elements basis tol overflow
      (prepared, [(m, name)]) m' = .ok (prepared, [(m, name), (m', name)]) :=
    addTerminal_known hs' hname' hknown
  have hnamed : [m, m'].foldlM (addTerminal points type d elements basis tol overflow)
      ((∅, []) : Named R) = .ok (prepared, [(m, name), (m', name)]) := by
    simp only [List.foldlM_cons, List.foldlM_nil, hfirst, hsecond, bind, Except.bind, pure,
      Except.pure]
  -- both terminals refer to the only table
  have hreferences : referencesOf prepared
      (Table.mergeNamed tol (prepared.map fun _ p => p.table)).canonical [(m, name), (m', name)] =
        ((∅ : Std.HashMap (Descriptor R) TableReference).insert m.toDescriptor r).insert
          m'.toDescriptor r := by
    simp only [referencesOf, List.foldl_cons, List.foldl_nil, hr]
  refine ⟨_, bind_eq_ok.mpr ⟨_, hnamed, rfl⟩, ?_, ?_⟩
  · refine (congrArg (·[m.toDescriptor]?) hreferences).trans ?_
    rw [Std.HashMap.getElem?_insert, Std.HashMap.getElem?_insert_self, ite_self]
  · refine (congrArg (·[m'.toDescriptor]?) hreferences).trans ?_
    exact Std.HashMap.getElem?_insert_self

end OptimizedTables

/-! ## Derivatives along directions of a triangle -/

namespace Slopes

open OptimizedTables WeakForm.Expr

def domain : Domain :=
  .ofCell .triangle 0

def field : Coefficient :=
  ⟨0, ⟨1, 1, []⟩, domain⟩

def elements : ElementNumbering :=
  .ofExprs [(coefficient field : Expr ℚ)]

/-- The derivative of the field along reference directions. -/
def slope (directions : List Nat) : Expr ℚ :=
  unary (.indexed (directions.map .fixed))
    (directions.foldl (fun e _ => unary .referenceGrad e) (leaf (.coefficient field)))

def descriptor (directions : List Nat) : ModifiedTerminal ℚ where
  terminal := .coefficient field
  physical := []
  reference := directions
  component := []
  restriction := none
  averaged := none
  expr := slope directions

def source (counts : List Nat) : TableSource where
  element := 1
  component := none
  frame := .reference
  derivatives := counts

/-- The derivative of the only basis function is two. -/
def two : BasisTable ℚ :=
  .ofFn 1 1 1 fun _ _ _ => 2

/-- Values of the derivative with some counts. -/
def basis (counts : List Nat) : BasisValues ℚ :=
  ({} : BasisValues ℚ).insert ((source counts).key 1 none 0) two

def values : Table ℚ :=
  .ofFn ⟨1, 1, 1, 1⟩ fun _ _ _ _ => 2

/-- The only table, ready for use. -/
def prepared (name : String) : Std.TreeMap String (PreparedTable ℚ) :=
  (∅ : Std.TreeMap String (PreparedTable ℚ)).insert name (prepare ⟨0, 0⟩ values)

/-- How a derivative of a name reads its table. -/
def reference (name : String) : TableReference where
  name := name
  source := name
  dofmap := [0]
  type := .fixed
  start := 0
  stop := 1
  isUniform := true
  isPiecewise := true
  isPermuted := false

/-- A source with other counts is assembled from its own basis values. -/
theorem assemble_source (counts : List Nat) :
    (source counts).assemble 1 .cell domain none (basis counts) = .ok values := by
  -- a cell has one entity
  have hkeys : (List.range (TableSource.entities none .cell domain)).map
      ((source counts).key 1 none) = [(source counts).key 1 none 0] := rfl
  have hget : (basis counts).get ((source counts).key 1 none 0) = [two] := by
    simp [basis, BasisValues.get, BasisValues.insert]
  have hgather : TableSource.gather (basis counts) [(source counts).key 1 none 0] none =
      .ok [[two]] := by
    simp only [TableSource.gather, TableSource.permutations, hget]
    rfl
  unfold TableSource.assemble
  dsimp only
  rw [hkeys, hgather]
  cbv

/-- Two derivatives with one name are built from the values of the first. -/
theorem build_slopes {directions directions' counts counts' : List Nat} {name : String}
    (hs : (descriptor directions).tableSource domain = .ok (some (source counts)))
    (hs' : (descriptor directions').tableSource domain = .ok (some (source counts')))
    (hname : tableName 0 none .reference counts none .cell 1 = name)
    (hname' : tableName 0 none .reference counts' none .cell 1 = name)
    (hr : OptimizedTables.reference (prepared name)
      (Table.mergeNamed ⟨0, 0⟩ ((prepared name).map fun _ p => p.table)).canonical name =
        some (reference name)) :
    ∃ tables : OptimizedTables ℚ,
      build 1 .cell domain [descriptor directions, descriptor directions']
        elements (basis counts) ⟨0, 0⟩ = .ok tables ∧
      tables.references[(descriptor directions).toDescriptor]? = some (reference name) ∧
      tables.references[(descriptor directions').toDescriptor]? = some (reference name) := by
  -- the one element of the integrand has the first number
  have hordinal : elements.ordinal? 1 = some 0 := by
    rw [elements, (ElementNumbering.ofExprs_numbers _).ordinal]
    cbv
  have hsourceName (counts : List Nat) :
      (sourceName (source counts) none elements .cell 1 : Result ℚ String) =
        .ok (tableName 0 none .reference counts none .cell 1) := by
    simp only [sourceName, source, hordinal]
    rfl
  exact build_pair hs hs' (hname ▸ hsourceName counts) (hname' ▸ hsourceName counts')
    (assemble_source counts) rfl hr

/-- A derivative is the field under as many gradients as it has directions, with an index each. -/
theorem built_slope {directions : List Nat}
    (h : applyAll (List.replicate directions.length .referenceGrad ++
      [.indexed (directions.map .fixed)]) (coefficient field) = .ok (slope directions)) :
    Built (slope directions) :=
  built_applyAll (.coefficient field) h

end Slopes

open Slopes OptimizedTables in
/-- The two mixed derivatives have one name, and one source. -/
theorem source_of_name_mixed :
    ∃ tables : OptimizedTables ℚ,
      build 1 .cell domain [descriptor [0, 1], descriptor [1, 0]]
        elements (basis [1, 1]) ⟨0, 0⟩ = .ok tables ∧
      tables.references[(descriptor [0, 1]).toDescriptor]? = some (reference "FE0_D11_Q1") ∧
      tables.references[(descriptor [1, 0]).toDescriptor]? = some (reference "FE0_D11_Q1") ∧
      ∃ s s', (descriptor [0, 1]).tableSource domain = .ok (some s) ∧
        (descriptor [1, 0]).tableSource domain = .ok (some s') ∧
        s.element = s'.element ∧ s.component = s'.component ∧
        (descriptor [0, 1]).averaged = (descriptor [1, 0]).averaged ∧ s.frame = s'.frame ∧
        (SameWidths s.derivatives s'.derivatives ↔ s.derivatives = s'.derivatives) ∧
        (s.derivatives = s'.derivatives → ∀ k, [0, 1].count k = [1, 0].count k) := by
  have hs : (descriptor [0, 1]).tableSource domain = .ok (some (source [1, 1])) := by cbv
  have hs' : (descriptor [1, 0]).tableSource domain = .ok (some (source [1, 1])) := by cbv
  have hname : tableName 0 none .reference [1, 1] none .cell 1 = "FE0_D11_Q1" := by
    decide +kernel
  obtain ⟨tables, hbuild, hr, hr'⟩ := build_slopes hs hs' hname hname (by decide +kernel)
  obtain ⟨s, s', hs, hs', helement, hcomponent, haveraged, hframe, hwidths, hsame⟩ :=
    source_of_name hbuild hr hr' rfl
  exact ⟨tables, hbuild, hr, hr', s, s', hs, hs', helement, hcomponent, haveraged,
    hframe (.inl rfl), hwidths, hsame⟩

namespace Slopes

/-- One derivative along the first direction, and eleven along the second. -/
def onceFirst : List Nat :=
  0 :: List.replicate 11 1

/-- Eleven derivatives along the first direction, and one along the second. -/
def onceSecond : List Nat :=
  1 :: List.replicate 11 0

end Slopes

open Slopes OptimizedTables WeakForm.Expr in
/-- **Counts of two widths**: with one and eleven derivatives along the directions, the name is
that of eleven and one, and both derivatives read the table of the first. -/
theorem name_of_two_sources :
    Built (slope onceFirst) ∧ (slope onceFirst).analyse = .ok (some (descriptor onceFirst)) ∧
    Built (slope onceSecond) ∧ (slope onceSecond).analyse = .ok (some (descriptor onceSecond)) ∧
    (∃ tables : OptimizedTables ℚ,
      build 1 .cell domain [descriptor onceFirst, descriptor onceSecond]
        elements (basis [1, 11]) ⟨0, 0⟩ = .ok tables ∧
      tables.references[(descriptor onceFirst).toDescriptor]? = some (reference "FE0_D111_Q1") ∧
      tables.references[(descriptor onceSecond).toDescriptor]? = some (reference "FE0_D111_Q1")) ∧
    (descriptor onceFirst).tableSource domain = .ok (some (source [1, 11])) ∧
    (descriptor onceSecond).tableSource domain = .ok (some (source [11, 1])) ∧
    (source [1, 11]).derivatives ≠ (source [11, 1]).derivatives := by
  -- one number after the other, both counts are written 111
  have hs : (descriptor onceFirst).tableSource domain = .ok (some (source [1, 11])) := by cbv
  have hs' : (descriptor onceSecond).tableSource domain = .ok (some (source [11, 1])) := by cbv
  exact ⟨built_slope (by cbv), by cbv, built_slope (by cbv), by cbv,
    build_slopes hs hs' (by decide +kernel) (by decide +kernel) (by decide +kernel), hs, hs',
    by decide⟩

end WeakForm
