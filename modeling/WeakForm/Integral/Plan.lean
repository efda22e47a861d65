import WeakForm.Expr.Normalization
import WeakForm.Graph.Elimination
import WeakForm.Graph.Partition
import WeakForm.Graph.Registers
import WeakForm.Integral.Block

/-!
# Plans of integrals

The plan of an integral says what generated code computes: for every number of
quadrature points a loop over them, and blocks that are computed once, outside all
loops. A loop is planned by these steps:

* the integrand is normalized, and its scalar graph built;
* the tables of its terminals are built, and those that are zero eliminated;
* the targets are factorized into arguments, and the graph of factors partitioned;
* each argument key becomes a block, hoisted out of the loop where nothing in it
  depends on the point;
* the tables that active nodes and arguments read are kept, and registers allocated.

Main definitions: `IntegralProblem`, `LoopPlan`, `IntegralPlan`, `LoopPlan.build`,
`IntegralPlan.build`.
-/

namespace WeakForm

/-- An integral, with an integrand for each number of quadrature points. -/
structure IntegralProblem (R : Type) where
  type : IntegralType
  domain : Domain
  integrands : Std.TreeMap Nat (Expr R)
  /-- The number of arguments of the form. -/
  rank : Nat
  rules : Std.TreeMap Nat (QuadratureRule R) := ∅
  basis : BasisValues R

/-- What is computed at each quadrature point. -/
structure LoopPlan (R : Type) [DecidableEq R] where
  factorization : Factorization R
  blocks : Block.File
  /-- The loop reads the coordinates of the points. -/
  needsPoints : Bool
  /-- The loop reads the weights. -/
  needsWeights : Bool
  /-- The register of every node of the factor graph that is kept in one. -/
  registers : List (Option Nat)

/-- The tables that a loop reads, and the blocks that were hoisted out of it. -/
structure LoopContext (R : Type) where
  hoisted : List Block
  unique : Std.TreeMap String (Table R)
  types : Std.TreeMap String TableType
  dofmaps : Std.TreeMap String (List Nat)

/-- What is computed for an integral. -/
structure IntegralPlan (R : Type) [DecidableEq R] where
  parameters : Parameters R
  type : IntegralType
  /-- The tables that are read, by name. -/
  unique : Std.TreeMap String (Table R) := ∅
  /-- The type of every table, also of those that are not read. -/
  types : Std.TreeMap String TableType := ∅
  /-- Blocks outside all loops. -/
  hoisted : Block.File := ∅
  /-- Loops by number of points. -/
  loops : Std.TreeMap Nat (LoopPlan R) := ∅
  /-- The dofs of every table, by its name before equal tables were merged. -/
  dofmaps : Std.TreeMap String (List Nat) := ∅
  rules : Std.TreeMap Nat (QuadratureRule R) := ∅

namespace IntegralType

/-- Whether code for active terminals reads the coordinates of the points. -/
def needsPoints {R : Type} (t : IntegralType) (active : List (ModifiedTerminal R)) : Bool :=
  let reads (kind : GeometryKind) : Bool := active.any fun m =>
    match m.terminal with
    | .geometry g => g.kind = kind
    | _ => false
  match t with
  | cell => reads .cellCoordinate
  | exteriorFacet | interiorFacet => reads .facetCoordinate
  | custom | expression => true
  | vertex => false

/-- Whether code reads the weights of the points. -/
def needsWeights (t : IntegralType) (d : Domain) : Bool :=
  t.expectsWeight d ||
    match t with
    | custom | expression => true
    | cell | exteriorFacet | interiorFacet | vertex => false

end IntegralType

namespace LoopPlan

variable {R : Type} [DecidableEq R]

/-- The table of each argument. -/
def argumentTables (tables : OptimizedTables R) (arguments : List (ModifiedTerminal R)) :
    Result R (List TableReference) :=
  arguments.mapM fun m =>
    match tables.references[m.toDescriptor]? with
    | some t => .ok t
    | none => .error (.missingBasis (.argument m.expr))

/-- The tables that active nodes or arguments read. Zeros and ones need no table. -/
def keptTables (tables : OptimizedTables R) (g : ScalarGraph R) (arguments : List TableReference) :
    Std.TreeMap String (Table R) :=
  let read := g.activeNodes.filterMap (·.table) ++ arguments
  tables.unique.filter fun name _ =>
    read.any (·.name = name) &&
      match tables.types[name]? with
      | some .zeros | some .ones => false
      | _ => true

/-- The dofs of every table that terminals read. -/
def dofmaps (tables : OptimizedTables R) : Std.TreeMap String (List Nat) :=
  tables.references.fold (fun dofmaps _ t => dofmaps.insert t.source t.dofmap) ∅

variable [Scalar R]

/-- The status of every node of a graph. -/
def partitioned (g : ScalarGraph R) : Result R (ScalarGraph R) :=
  match ScalarGraph.partition.run.run g with
  | (.ok _, g) => .ok g
  | (.error e, _) => .error e

/-- The plan of the loop over one number of points. -/
def build (problem : IntegralProblem R) (elements : ElementNumbering) (parameters : Parameters R)
    (points : Nat) (integrand : Expr R) (overflow : Overflow := .checked) :
    Result R (LoopPlan R × LoopContext R) := do
  let graph ← (← ScalarGraph.ofTargets [← integrand.normalize]).describeLeaves
  let tables ← OptimizedTables.build points problem.type problem.domain graph.terminals elements
    problem.basis parameters.toTolerance overflow
  -- a graph of its own: what vanishes with a zero is not part of it
  let graph ←
    if tables.references.any fun _ t => t.type = .zeros then graph.eliminateZeros tables
    else pure graph
  let factorization ← graph.factorize problem.rank
  -- factors are new nodes, so their leaves are described and given tables once more
  let factorGraph ← partitioned ((← factorization.graph.describeLeaves).assignTables tables)
  let factorization := { factorization with graph := factorGraph }
  let arguments ← argumentTables tables factorization.arguments
  let blocks ← Block.ofTerms factorization arguments points
  let (hoisted, inside) :=
    blocks.partition (·.isHoisted (problem.type.expectsWeight problem.domain))
  let registers ← factorGraph.registers (factorGraph.scores parameters) parameters
  return ({
      factorization
      blocks := inside.foldl (fun file b => Block.file file b.dofs b) ∅
      needsPoints := problem.type.needsPoints (factorGraph.activeNodes.filterMap (·.terminal))
      needsWeights := problem.type.needsWeights problem.domain
      registers
    }, {
      hoisted
      unique := keptTables tables factorGraph arguments
      types := tables.types
      dofmaps := dofmaps tables })

end LoopPlan

namespace IntegralPlan

variable {R : Type} [DecidableEq R] [Scalar R]

/-- The numbers of points, in ascending order. -/
def points (plan : IntegralPlan R) : List Nat :=
  plan.loops.keys

/-- Add tables to those of other loops. Tables of one name have to be close. -/
def mergeTables (tol : Tolerance R) (all tables : Std.TreeMap String (Table R)) :
    Result R (Std.TreeMap String (Table R)) :=
  tables.foldlM
    (fun all name t =>
      match all[name]? with
      | none => .ok (all.insert name t)
      | some other =>
        if Table.isClose tol other t then .ok all else .error (.tableCollision name)) all

/-- Add a loop with its tables and hoisted blocks. -/
def addLoop (plan : IntegralPlan R) (points : Nat) (loop : LoopPlan R) (context : LoopContext R) :
    Result R (IntegralPlan R) := do
  return { plan with
    unique := ← mergeTables plan.parameters.toTolerance plan.unique context.unique
    types := context.types.foldl .insert plan.types
    hoisted := context.hoisted.foldl (fun file b => Block.file file b.dofs b) plan.hoisted
    loops := plan.loops.insert points loop
    dofmaps := context.dofmaps.foldl .insert plan.dofmaps }

/-- The plan of an integral. Where several loops fail, the error is that of the one
with the fewest points. -/
def build (problem : IntegralProblem R) (parameters : Parameters R)
    (overflow : Overflow := .checked) : Result R (IntegralPlan R) := do
  let elements := ElementNumbering.ofExprs problem.integrands.values
  -- all loops are planned before the first one is added
  let loops ← problem.integrands.toList.mapM fun (points, integrand) => do
    return (points, ← LoopPlan.build problem elements parameters points integrand overflow)
  loops.foldlM (fun plan (points, loop, context) => plan.addLoop points loop context)
    { parameters, type := problem.type, rules := problem.rules }

end IntegralPlan

end WeakForm
