import WeakForm.Parameters
import WeakForm.Table.Classification
import WeakForm.Table.Deduplication
import WeakForm.Table.Naming
import WeakForm.Table.Numbering

/-!
# Tables of an integral

Every terminal that is read from basis values gets a reference to a table. Its
table is assembled from the values supplied for its element, clamped, stripped of
zero columns, classified and compressed. Terminals with one source have one name
and share a table; of tables with close values one is kept.

* `TableSource` — element, component and derivatives that a terminal is read from;
* `Descriptor.tableSource` — the source of a terminal, if it has one;
* `TableSource.assemble` — the values of a source;
* `OptimizedTables.build` — the tables and references of an integral.
-/

namespace WeakForm

/-- What the values of a terminal are read from. -/
structure TableSource where
  element : ElementId
  /-- Component of the element, if it has several. -/
  component : Option Nat
  frame : Frame
  derivatives : List Nat
  deriving DecidableEq, Repr

/-- The frame and the counts of a terminal's derivatives on a domain. -/
def Descriptor.derivativeFrame {R : Type} (m : Descriptor R) (d : Domain) (overflow : Overflow) :
    Checked R (Frame × List Nat) := do
  if m.physical.isEmpty then return (.reference, ← derivativeCounts m.reference d.tdim overflow)
  else return (.physical, ← derivativeCounts m.physical d.gdim overflow)

/-- The source of a function's values. -/
def Descriptor.elementSource {R : Type} (m : Descriptor R) (d : Domain) (e : Element)
    (overflow : Overflow) : Checked R TableSource := do
  let (frame, derivatives) ← m.derivativeFrame d overflow
  return {
    element := e.id
    component := if 1 < e.size then some m.flatComponent else none
    frame, derivatives }

/-- The first entry of a component. -/
def Descriptor.axis {R : Type} (m : Descriptor R) (k : Nat) : Checked R Nat :=
  match m.component[k]? with
  | some c => .ok c
  | none => .error .outOfBounds

/-- What a terminal is read from. The coordinates of a point are the coordinate
field, and the Jacobian is its derivative along a reference direction. -/
def ModifiedTerminal.tableSource {R : Type} (m : ModifiedTerminal R) (d : Domain)
    (overflow : Overflow := .checked) : Result R (Option TableSource) := do
  match m.terminal with
  | .argument a => return some (← m.elementSource d a.element overflow)
  | .coefficient c => return some (← m.elementSource d c.element overflow)
  | .geometry g =>
    match g.kind with
    | .spatialCoordinate =>
      let (frame, derivatives) ← m.derivativeFrame d overflow
      return some {
        element := g.domain.coordinate, component := some (← m.axis 0), frame, derivatives }
    | .jacobian =>
      -- it is a derivative along the reference itself
      unless m.physical.isEmpty do throw (.modifiers .mixedFrames m.expr)
      let directions := (m.reference ++ [← m.axis 1]).mergeSort
      let derivatives : List Nat ← (derivativeCounts directions d.tdim overflow : Checked R _)
      return some {
        element := g.domain.coordinate, component := some (← m.axis 0), frame := .reference
        derivatives }
    | _ => return none
  | .literal _ | .zero _ _ => return none

namespace TableSource

variable {R : Type}

/-- What the values of a source on one entity are filed under. -/
def key (s : TableSource) (points : Nat) (averaged : Option Averaging) (entity : Nat) :
    BasisKey where
  points := points
  element := s.element
  averaged := averaged
  entity := entity
  frame := s.frame
  derivatives := s.derivatives

/-- The number of entities a table has rows for. An average over the cell has one. -/
def entities (averaged : Option Averaging) (type : IntegralType) (d : Domain) : Nat :=
  match averaged with
  | some .cell => 1
  | _ => type.entities d

/-- The permutations supplied for an entity: some, and as many as for the first. -/
def permutations (basis : BasisValues R) (k : BasisKey) (expected : Option Nat) :
    Result R (List (BasisTable R)) := do
  let tables := basis.get k
  if tables.isEmpty then throw (.missingBasis (.key k))
  match expected with
  | none => return tables
  | some n =>
    unless tables.length = n do throw (.missingBasis (.permutations k tables.length n))
    return tables

/-- The tables supplied for every entity, by permutation. -/
def gather (basis : BasisValues R) : List BasisKey → Option Nat →
    Result R (List (List (BasisTable R)))
  | [], _ => .ok []
  | k :: ks, expected => do
    let tables ← permutations basis k expected
    return tables :: (← gather basis ks (expected.or (some tables.length)))

/-- Every table has the points and dofs of the first, and the component. -/
def checkBasis (s : TableSource) (points dofs component : Nat) (t : BasisTable R) :
    Result R Unit := do
  unless t.points = points ∧ t.dofs = dofs do throw (.missingBasis (.shapes s.element))
  unless component < t.components do throw (.missingBasis (.component s.element component))

variable [Scalar R]

/-- The values of a source at given points. -/
def assemble (s : TableSource) (points : Nat) (type : IntegralType) (d : Domain)
    (averaged : Option Averaging) (basis : BasisValues R) : Result R (Table R) := do
  let count := entities averaged type d
  let byEntity ← gather basis ((List.range count).map (s.key points averaged)) none
  match byEntity.head?.bind (·.head?) with
  | none => throw (.missingBasis (.noEntities s.element))
  | some first =>
    let component := s.component.getD 0
    -- the first table tells the points and dofs of all
    byEntity.flatten.forM (s.checkBasis first.points first.dofs component)
    let tables := (byEntity.map List.toArray).toArray
    return Table.ofFn
      { permutations := (tables.getD 0 #[]).size
        entities := count
        points := first.points
        dofs := first.dofs }
      fun p e q dof =>
        (do (← (← tables[e]?)[p]?).get? dof component q).getD Scalar.zero

end TableSource

/-- A table ready for use, with the columns it was cut down to. -/
structure PreparedTable (R : Type) where
  table : Table R
  type : TableType
  start : Nat
  stop : Nat

/-- The tables and references of an integral at one number of points. -/
structure OptimizedTables (R : Type) [DecidableEq R] where
  /-- The tables kept, by name. -/
  unique : Std.TreeMap String (Table R) := ∅
  types : Std.TreeMap String TableType := ∅
  /-- The table of every terminal that is read from one. -/
  references : Std.HashMap (Descriptor R) TableReference := ∅

namespace OptimizedTables

variable {R : Type} [DecidableEq R]

/-- The reference of a terminal to the table kept for its own. -/
def reference (prepared : Std.TreeMap String (PreparedTable R))
    (canonical : Std.TreeMap String String) (name : String) : Option TableReference := do
  let own ← prepared[name]?
  let keptName ← canonical[name]?
  let kept ← prepared[keptName]?
  -- the columns are those of its own table, the type is that of the kept one
  return {
    name := keptName
    source := name
    dofmap := List.range' own.start (own.stop - own.start)
    type := kept.type
    start := own.start
    stop := own.stop
    isUniform := kept.type.isUniform
    isPiecewise := kept.type.isPiecewise
    isPermuted := 1 < own.table.shape.permutations }

variable [Scalar R]

/-- Values made ready: clamped, stripped, classified and compressed. -/
def prepare (tol : Tolerance R) (values : Table R) : PreparedTable R :=
  let stripped := (values.clamp tol).strip tol
  let type := stripped.table.classify tol
  { table := stripped.table.compress type tol, type,
    start := stripped.start, stop := stripped.stop }

/-- The name of a source at given points. -/
def sourceName (s : TableSource) (averaged : Option Averaging) (elements : ElementNumbering)
    (type : IntegralType) (points : Nat) : Result R String :=
  match elements.ordinal? s.element with
  | none => .error (.missingBasis (.notNumbered s.element))
  | some ordinal =>
    .ok (tableName ordinal s.component s.frame s.derivatives averaged type.entityType points)

/-- The tables of terminals by name, and the terminals that have one with its name. -/
abbrev Named (R : Type) :=
  Std.TreeMap String (PreparedTable R) × List (ModifiedTerminal R × String)

/-- Prepare the table of one more terminal, if it has one and its name is new. -/
def addTerminal (points : Nat) (type : IntegralType) (d : Domain) (elements : ElementNumbering)
    (basis : BasisValues R) (tol : Tolerance R) (overflow : Overflow) (named : Named R)
    (m : ModifiedTerminal R) : Result R (Named R) := do
  match ← m.tableSource d overflow with
  | none => return named
  | some s =>
    let name ← sourceName s m.averaged elements type points
    let prepared ←
      -- under a name that was there before, nothing is assembled
      if named.1.contains name then pure named.1
      else do
        let values ← s.assemble points type d m.averaged basis
        pure (named.1.insert name (prepare tol values))
    return (prepared, named.2 ++ [(m, name)])

/-- The tables and references of terminals at one number of points. -/
def build (points : Nat) (type : IntegralType) (d : Domain) (terminals : List (ModifiedTerminal R))
    (elements : ElementNumbering) (basis : BasisValues R) (tol : Tolerance R)
    (overflow : Overflow := .checked) : Result R (OptimizedTables R) := do
  let (prepared, named) ←
    terminals.foldlM (addTerminal points type d elements basis tol overflow) ((∅, []) : Named R)
  let merged := Table.mergeNamed tol (prepared.map fun _ p => p.table)
  return {
    unique := merged.unique
    types := (prepared.filter fun name _ => merged.unique.contains name).map fun _ p => p.type
    references := named.foldl
      (fun references (m, name) =>
        match reference prepared merged.canonical name with
        | some r => references.insert m.toDescriptor r
        | none => references) ∅ }

end OptimizedTables

end WeakForm
