import WeakForm.Proofs.ElementOrdinals
import WeakForm.Proofs.Factorization
import WeakForm.Table.Assembly

/-!
# References to tables

The tables of an integral are built terminal by terminal: a terminal that is read from basis
values has a name, and the table of the name is prepared once. What a terminal refers to is
found by its descriptor.

* `OptimizedTables.addTerminal_new`, `addTerminal_known` — a table is assembled for a new name;
* `OptimizedTables.Prepared`, `addTerminals_prepared` — the prepared tables and the names;
* `OptimizedTables.build_ok` — the tables of an integral, from these;
* `references_spec` — a reference is that of a terminal with the descriptor;
* `isPiecewise_of_reference` — what a reference says of its table agrees with its type;
* `VertexTest.build_tables` — the table of a test function at the vertices of a triangle.
-/

namespace WeakForm

variable {R : Type} [DecidableEq R]

namespace OptimizedTables

variable {points : Nat} {type : IntegralType} {d : Domain} {elements : ElementNumbering}
  {basis : BasisValues R} {tol : Tolerance R} {terminals : List (ModifiedTerminal R)}
  {overflow : Overflow}

section Build

variable [Scalar R]

/-- A terminal of the list is read from `s` under a name. -/
structure IsNamed (points : Nat) (type : IntegralType) (d : Domain) (elements : ElementNumbering)
    (terminals : List (ModifiedTerminal R)) (overflow : Overflow) (m : ModifiedTerminal R)
    (s : TableSource) (name : String) : Prop where
  mem : m ∈ terminals
  source : m.tableSource d overflow = .ok (some s)
  name : (sourceName s m.averaged elements type points : Result R String) = .ok name

/-- Named terminals are those of the list, and a prepared table is that of a terminal with its
name. -/
structure Prepared (points : Nat) (type : IntegralType) (d : Domain) (elements : ElementNumbering)
    (basis : BasisValues R) (tol : Tolerance R) (terminals : List (ModifiedTerminal R))
    (overflow : Overflow) (named : Named R) : Prop where
  names : ∀ entry ∈ named.2,
    ∃ s, IsNamed points type d elements terminals overflow entry.1 s entry.2
  tables : ∀ (name : String) (p : PreparedTable R), named.1[name]? = some p →
    ∃ m s values, IsNamed points type d elements terminals overflow m s name ∧
      s.assemble points type d m.averaged basis = .ok values ∧ p = prepare tol values

omit [DecidableEq R] [Scalar R] in
/-- A terminal stays named when more terminals are done. -/
theorem IsNamed.mono {done more : List (ModifiedTerminal R)} {m : ModifiedTerminal R}
    {s : TableSource} {name : String} (h : IsNamed points type d elements done overflow m s name) :
    IsNamed points type d elements (done ++ more) overflow m s name :=
  ⟨List.mem_append_left _ h.mem, h.source, h.name⟩

omit [DecidableEq R] in
/-- What is prepared stays so when more terminals are done. -/
theorem Prepared.mono {done more : List (ModifiedTerminal R)} {named : Named R}
    (h : Prepared points type d elements basis tol done overflow named) :
    Prepared points type d elements basis tol (done ++ more) overflow named where
  names entry hentry := (h.names entry hentry).imp fun _ hs => hs.mono
  tables name p hp := by
    obtain ⟨m, s, values, hm, hvalues, heq⟩ := h.tables name p hp
    exact ⟨m, s, values, hm.mono, hvalues, heq⟩

section AddTerminal

variable {m : ModifiedTerminal R} {s : TableSource} {name : String} {named : Named R}
  {values : Table R}

omit [DecidableEq R] in
/-- A terminal that reads no table adds none. -/
theorem addTerminal_none (hs : m.tableSource d overflow = .ok none) :
    addTerminal points type d elements basis tol overflow named m = .ok named := by
  simp only [addTerminal, hs, bind, Except.bind, pure, Except.pure]

omit [DecidableEq R] in
/-- The table of a new name is assembled. -/
theorem addTerminal_new (hs : m.tableSource d overflow = .ok (some s))
    (hname : (sourceName s m.averaged elements type points : Result R String) = .ok name)
    (hnew : named.1.contains name = false)
    (hvalues : s.assemble points type d m.averaged basis = .ok values) :
    addTerminal points type d elements basis tol overflow named m =
      .ok (named.1.insert name (prepare tol values), named.2 ++ [(m, name)]) := by
  simp only [addTerminal, hs, hname, hnew, hvalues, bind, Except.bind, pure, Except.pure,
    Bool.false_eq_true, if_false]

omit [DecidableEq R] in
/-- The table of a known name is left as it is, whatever the source. -/
theorem addTerminal_known (hs : m.tableSource d overflow = .ok (some s))
    (hname : (sourceName s m.averaged elements type points : Result R String) = .ok name)
    (hknown : named.1.contains name) :
    addTerminal points type d elements basis tol overflow named m =
      .ok (named.1, named.2 ++ [(m, name)]) := by
  simp only [addTerminal, hs, hname, hknown, bind, Except.bind, pure, Except.pure, if_true]

end AddTerminal

omit [DecidableEq R] in
/-- One more terminal. -/
theorem addTerminal_prepared {done : List (ModifiedTerminal R)} {m : ModifiedTerminal R}
    {named named' : Named R}
    (hnamed : Prepared points type d elements basis tol done overflow named)
    (h : addTerminal points type d elements basis tol overflow named m = .ok named') :
    Prepared points type d elements basis tol (done ++ [m]) overflow named' := by
  obtain ⟨source, hsource, h⟩ := bind_eq_ok.mp h
  cases source with
  -- a terminal without a source has no table
  | none =>
    cases h
    exact hnamed.mono
  | some s =>
    obtain ⟨name, hname, h⟩ := bind_eq_ok.mp h
    -- the terminal has the name of its source
    have hown : IsNamed points type d elements (done ++ [m]) overflow m s name :=
      ⟨List.mem_append_right _ (List.mem_singleton.mpr rfl), hsource, hname⟩
    have hadded : ∀ entry ∈ named.2 ++ [(m, name)],
        ∃ s, IsNamed points type d elements (done ++ [m]) overflow entry.1 s entry.2 := by
      intro entry hentry
      rcases List.mem_append.mp hentry with hentry | hentry
      · exact (hnamed.names entry hentry).imp fun _ hs => hs.mono
      · obtain rfl := List.mem_singleton.mp hentry
        exact ⟨s, hown⟩
    dsimp only at h
    split at h
    · -- the table of the name is there
      cases h
      exact ⟨hadded, hnamed.mono.tables⟩
    -- the values are assembled and prepared under the new name
    · obtain ⟨values, hvalues, h⟩ := bind_eq_ok.mp h
      cases h
      refine ⟨hadded, fun name' p hp => ?_⟩
      rcases entry_of_insert hp with ⟨rfl, rfl⟩ | hp
      · exact ⟨m, s, values, hown, hvalues, rfl⟩
      · exact hnamed.mono.tables name' p hp

omit [DecidableEq R] in
/-- The prepared tables and the names of all terminals. -/
theorem addTerminals_prepared {named : Named R}
    (h : terminals.foldlM (addTerminal points type d elements basis tol overflow)
      ((∅, []) : Named R) = .ok named) :
    Prepared points type d elements basis tol terminals overflow named := by
  refine foldlM_ok_induct (P := fun done named =>
    Prepared points type d elements basis tol done overflow named) ?_ ?_ h
  · exact ⟨fun entry hentry => absurd hentry List.not_mem_nil, fun name p hp => by simp at hp⟩
  · exact fun done m named named' _ hnamed hadd => addTerminal_prepared hnamed hadd

/-- The references of named terminals, each under its descriptor. -/
def referencesOf (prepared : Std.TreeMap String (PreparedTable R))
    (canonical : Std.TreeMap String String) (named : List (ModifiedTerminal R × String)) :
    Std.HashMap (Descriptor R) TableReference :=
  named.foldl
    (fun references (m, name) =>
      match reference prepared canonical name with
      | some r => references.insert m.toDescriptor r
      | none => references) ∅

omit [DecidableEq R] [Scalar R] in
/-- A prepared table is found under its name. -/
theorem getElem?_prepared {prepared : Std.TreeMap String (PreparedTable R)} {name : String}
    {p : PreparedTable R} (h : prepared[name]? = some p) :
    (prepared.map fun _ p => p.table)[name]? = some p.table := by
  rw [Std.TreeMap.getElem?_map, h]
  rfl

/-- The tables of an integral, from the prepared ones. -/
theorem build_ok {tables : OptimizedTables R}
    (h : build points type d terminals elements basis tol overflow = .ok tables) :
    ∃ named : Named R, Prepared points type d elements basis tol terminals overflow named ∧
      tables.unique = (Table.mergeNamed tol (named.1.map fun _ p => p.table)).unique ∧
      tables.types = (named.1.filter fun name _ => tables.unique.contains name).map
        (fun _ p => p.type) ∧
      tables.references = referencesOf named.1
        (Table.mergeNamed tol (named.1.map fun _ p => p.table)).canonical named.2 := by
  obtain ⟨named, hnamed, h⟩ := bind_eq_ok.mp h
  cases h
  exact ⟨named, addTerminals_prepared hnamed, rfl, rfl, rfl⟩

end Build

/-- **A reference** is that of a named terminal with the descriptor. -/
theorem references_spec {prepared : Std.TreeMap String (PreparedTable R)}
    {canonical : Std.TreeMap String String} {named : List (ModifiedTerminal R × String)}
    {key : Descriptor R} {r : TableReference}
    (h : (referencesOf prepared canonical named)[key]? = some r) :
    ∃ entry ∈ named, entry.1.toDescriptor = key ∧
      reference prepared canonical entry.2 = some r := by
  refine foldl_induct (P := fun done found => ∀ (key : Descriptor R) (r : TableReference),
    found[key]? = some r → ∃ entry ∈ done, entry.1.toDescriptor = key ∧
      reference prepared canonical entry.2 = some r) ?_ ?_ key r h
  -- no reference is there at first
  · intro key r hr
    simp at hr
  · intro done entry found _ hfound key r hr
    have hbefore (hr : found[key]? = some r) : ∃ entry' ∈ done ++ [entry],
        entry'.1.toDescriptor = key ∧ reference prepared canonical entry'.2 = some r := by
      obtain ⟨entry', hmem, hspec⟩ := hfound key r hr
      exact ⟨entry', List.mem_append_left _ hmem, hspec⟩
    -- the new reference, if there is one, takes the place of an earlier one
    dsimp only at hr
    split at hr
    · next r' hr' =>
      rw [Std.HashMap.getElem?_insert] at hr
      split at hr
      · next hkey =>
        obtain rfl := Option.some.inj hr
        exact ⟨entry, List.mem_append_right _ List.mem_cons_self, eq_of_beq hkey, hr'⟩
      · exact hbefore hr
    · exact hbefore hr

omit [DecidableEq R] in
/-- The tables that a reference is made from: the terminal's own, and the one kept for it. -/
theorem reference_spec {prepared : Std.TreeMap String (PreparedTable R)}
    {canonical : Std.TreeMap String String} {name : String} {r : TableReference}
    (h : reference prepared canonical name = some r) :
    ∃ own keptName kept, prepared[name]? = some own ∧ canonical[name]? = some keptName ∧
      prepared[keptName]? = some kept ∧ r = {
        name := keptName
        source := name
        dofmap := List.range' own.start (own.stop - own.start)
        type := kept.type
        start := own.start
        stop := own.stop
        isUniform := kept.type.isUniform
        isPiecewise := kept.type.isPiecewise
        isPermuted := 1 < own.table.shape.permutations } := by
  obtain ⟨own, hown, h⟩ := Option.bind_eq_some_iff.mp h
  obtain ⟨keptName, hname, h⟩ := Option.bind_eq_some_iff.mp h
  obtain ⟨kept, hkept, h⟩ := Option.bind_eq_some_iff.mp h
  exact ⟨own, keptName, kept, hown, hname, hkept, (Option.some.inj h).symm⟩

/-- **What a reference says of its table agrees with the table's type.** -/
theorem isPiecewise_of_reference [Scalar R] {tables : OptimizedTables R}
    (h : build points type d terminals elements basis tol overflow = .ok tables)
    {key : Descriptor R} {r : TableReference} (hr : tables.references[key]? = some r) :
    r.isPiecewise = r.type.isPiecewise := by
  obtain ⟨named, -, -, -, hreferences⟩ := build_ok h
  rw [hreferences] at hr
  obtain ⟨entry, -, -, hr⟩ := references_spec hr
  obtain ⟨own, keptName, kept, -, -, -, rfl⟩ := reference_spec hr
  rfl

end OptimizedTables

/-! ### A test function at the vertices of a triangle -/

namespace VertexTest

open SingleTest (descriptor)
open ScaledTest OptimizedTables

/-- The domain of the test function. -/
def domain : Domain :=
  .ofCell .triangle 0

/-- What the values at a vertex are filed under. -/
def key (vertex : Nat) : BasisKey where
  points := 1
  element := 1
  averaged := none
  entity := vertex
  frame := .reference
  derivatives := [0, 0]

/-- At each vertex, one of the three basis functions is one. -/
def atVertex (vertex : Nat) : BasisTable ℚ :=
  .ofFn 3 1 1 fun dof _ _ => if dof = vertex then 1 else 0

def basis : BasisValues ℚ :=
  ((({} : BasisValues ℚ).insert (key 0) (atVertex 0)).insert (key 1) (atVertex 1)).insert (key 2)
    (atVertex 2)

/-- What the test function is read from. -/
def source : TableSource where
  element := 1
  component := none
  frame := .reference
  derivatives := [0, 0]

/-- The table of the test function: the identity between vertices and dofs. -/
def values : Table ℚ :=
  .ofFn ⟨1, 3, 1, 3⟩ fun _ vertex _ dof => if dof = vertex then 1 else 0

/-- The only table, ready for use. -/
def prepared : Std.TreeMap String (PreparedTable ℚ) :=
  (∅ : Std.TreeMap String (PreparedTable ℚ)).insert "FE0_V_Q1" (prepare ⟨0, 0⟩ values)

/-- How the test function reads its table. -/
def reference : TableReference where
  name := "FE0_V_Q1"
  source := "FE0_V_Q1"
  dofmap := [0, 1, 2]
  type := .piecewise
  start := 0
  stop := 3
  isUniform := false
  isPiecewise := true
  isPermuted := false

def tables : OptimizedTables ℚ :=
  let merged := Table.mergeNamed ⟨0, 0⟩ (prepared.map fun _ p => p.table)
  { unique := merged.unique
    types := (prepared.filter fun name _ => merged.unique.contains name).map fun _ p => p.type
    references :=
      (∅ : Std.HashMap (Descriptor ℚ) TableReference).insert descriptor.toDescriptor reference }

/-- The basis has one table for each vertex. -/
theorem basis_get {vertex : Nat} (h : vertex < 3) : basis.get (key vertex) = [atVertex vertex] := by
  match vertex, h with
  | 0, _ | 1, _ | 2, _ =>
    simp [basis, BasisValues.get, BasisValues.insert, Std.HashMap.getD_insert, key]

/-- The basis values at the three vertices are gathered. -/
theorem gather_basis : TableSource.gather basis [key 0, key 1, key 2] none =
    .ok [[atVertex 0], [atVertex 1], [atVertex 2]] := by
  simp only [TableSource.gather, TableSource.permutations, basis_get (show 0 < 3 by decide),
    basis_get (show 1 < 3 by decide), basis_get (show 2 < 3 by decide)]
  rfl

/-- The table has the value one at each vertex for its function. -/
theorem assemble_source : source.assemble 1 .vertex domain none basis = .ok values := by
  have hkeys : (List.range (TableSource.entities none .vertex domain)).map
      (source.key 1 none) = [key 0, key 1, key 2] := rfl
  unfold TableSource.assemble
  dsimp only
  rw [hkeys, gather_basis]
  cbv

/-- The table of the test function is named after element, entity and number of points. -/
theorem sourceName_source :
    (sourceName source none (.ofExprs [form]) .vertex 1 : Result ℚ String) = .ok "FE0_V_Q1" := by
  have hordinal : (ElementNumbering.ofExprs [form]).ordinal? source.element = some 0 := by
    rw [(ElementNumbering.ofExprs_numbers _).ordinal]
    cbv
  rw [sourceName, hordinal]
  cbv

/-- The volume has no table. -/
theorem addTerminal_volume (named : Named ℚ) :
    addTerminal 1 .vertex domain (.ofExprs [form]) basis ⟨0, 0⟩ .checked named volumeDescriptor =
      .ok named :=
  addTerminal_none (by cbv)

/-- The test function is the first to use its table. -/
theorem addTerminal_test :
    addTerminal 1 .vertex domain (.ofExprs [form]) basis ⟨0, 0⟩ .checked (∅, []) descriptor =
      .ok (prepared, [(descriptor, "FE0_V_Q1")]) := by
  have hsource : descriptor.tableSource domain = .ok (some source) := by cbv
  have hnew : (∅ : Std.TreeMap String (PreparedTable ℚ)).contains "FE0_V_Q1" = false := by simp
  exact addTerminal_new hsource sourceName_source hnew assemble_source

/-- At one point of each vertex the test function has a table, and the volume has none. -/
theorem build_tables :
    build 1 .vertex domain [volumeDescriptor, descriptor] (.ofExprs [form]) basis ⟨0, 0⟩ =
      .ok tables := by
  have hreference : OptimizedTables.reference prepared
      (Table.mergeNamed ⟨0, 0⟩ (prepared.map fun _ p => p.table)).canonical "FE0_V_Q1" =
        some reference := by
    decide +kernel
  unfold build
  simp only [List.foldlM_cons, List.foldlM_nil, addTerminal_volume, addTerminal_test, bind,
    Except.bind, pure, Except.pure, List.foldl_cons, List.foldl_nil, hreference]
  rfl

theorem reference_test : tables.references[descriptor.toDescriptor]? = some reference := by
  rw [tables]
  exact Std.HashMap.getElem?_insert_self

end VertexTest

end WeakForm
