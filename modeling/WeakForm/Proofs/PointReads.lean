import WeakForm.Proofs.Hoisting
import WeakForm.Proofs.KeptTables
import WeakForm.Proofs.NamedSources

/-!
# Reads of the quadrature points

The coordinates of a point, in the reference cell or in a reference facet, are given with the
point and not read from a table. Two analyses tell where a loop needs them. The partition of its
graph makes every active leaf over coordinates varying. The flag of the loop is set from its
active terminals, but the type of the integral asks for coordinates of one kind only, or of none.

* `Node.IsLeafOver` — leaves over a kind of geometric quantity;
* `IntegralType.needsPoints_eq_true`, `LoopStages.Lead.needsPoints_iff` — where the flag is set;
* `LoopStages.Lead.coordinate_varying` — leaves over coordinates are evaluated at every point;
* `needsPoints_of_coordinate` — the two analyses, for the loops of a plan;
* `PointTest` — the integral of a coordinate.
-/

namespace WeakForm

open ScalarGraph

variable {R : Type} [DecidableEq R]

/-- The coordinates of a point, in the reference cell or in a reference facet. -/
def GeometryKind.IsCoordinate (k : GeometryKind) : Prop :=
  k = .cellCoordinate ∨ k = .facetCoordinate

/-- The coordinates that the type of an integral asks its active terminals for. -/
def IntegralType.asked : IntegralType → Option GeometryKind
  | .cell => some .cellCoordinate
  | .exteriorFacet | .interiorFacet => some .facetCoordinate
  | .vertex | .custom | .expression => none

/-- A loop that reads a quantity of the kind is said to read the points. -/
def IntegralType.Tells (t : IntegralType) (k : GeometryKind) : Prop :=
  t = .custom ∨ t = .expression ∨ t.asked = some k

/-- A leaf over a geometric quantity of the kind. -/
def Node.IsLeafOver (n : Node R) (k : GeometryKind) : Prop :=
  n.isLeaf ∧ ∃ q : Geometry, n.expr.core = some (.geometry q) ∧ q.kind = k

omit [DecidableEq R] in
/-- Coordinates are given with the point, and not read from a table. -/
theorem ModifiedTerminal.tableSource_coordinate {m : ModifiedTerminal R} {q : Geometry}
    (hq : m.terminal = .geometry q) (hk : q.kind.IsCoordinate) (d : Domain)
    (overflow : Overflow) : m.tableSource d overflow = .ok none := by
  unfold tableSource
  rw [hq]
  rcases hk with hk | hk
  · simp only [hk]
    rfl
  · simp only [hk]
    rfl

/-! ## The flag -/

omit [DecidableEq R] in
/-- The flag is set for an active terminal over what the type asks for. -/
theorem IntegralType.needsPoints_eq_true {t : IntegralType} {active : List (ModifiedTerminal R)} :
    t.needsPoints active = true ↔ t = .custom ∨ t = .expression ∨
      ∃ m ∈ active, ∃ q : Geometry, m.terminal = .geometry q ∧ t.asked = some q.kind := by
  cases t with
  | vertex | custom | expression => simp [needsPoints, asked]
  | cell | exteriorFacet | interiorFacet =>
    simp only [needsPoints, asked, List.any_eq_true, reduceCtorEq, false_or]
    refine exists_congr fun m => and_congr_right fun _ => ?_
    -- only geometric quantities have a kind
    cases m.terminal with
    | geometry g => simp [eq_comm]
    | argument | coefficient | literal | zero => simp

variable [Scalar R]

namespace LoopStages.Lead

variable {s : LoopStages R} {problem : IntegralProblem R} {elements : ElementNumbering}
  {parameters : Parameters R} {overflow : Overflow} {points : Nat} {integrand : Expr R}
  {loop : LoopPlan R} {context : LoopContext R} {n : Node R} {k : GeometryKind}

/-- A node is a leaf over a kind of quantity where its descriptor is. -/
theorem isLeafOver_iff
    (h : s.Lead problem elements parameters overflow points integrand loop context)
    (hn : n ∈ loop.factorization.graph.nodes) : n.IsLeafOver k ↔
      ∃ m, n.terminal = some m ∧ ∃ q : Geometry, m.terminal = .geometry q ∧ q.kind = k := by
  obtain ⟨i, hi⟩ := Array.mem_iff_getElem?.mp hn
  constructor
  · rintro ⟨hleaf, q, hcore, hkind⟩
    -- the descriptor of a leaf names the terminal at its core
    obtain ⟨m, hm, hdescribes⟩ := h.exists_terminal hi hleaf
    have hterminal := hdescribes.terminal.2.symm.trans hcore
    exact ⟨m, hm, q, Option.some.inj hterminal, hkind⟩
  · rintro ⟨m, hm, q, hq, hkind⟩
    obtain ⟨hleaf, hdescribes⟩ := (h.terminal_eq_some hi).mp hm
    exact ⟨hleaf, q, hq ▸ hdescribes.terminal.2, hkind⟩

/-- **The flag of a loop** is set for custom integrals and expressions, and where an active leaf
is over what the type asks for. -/
theorem needsPoints_iff
    (h : s.Lead problem elements parameters overflow points integrand loop context) :
    loop.needsPoints = true ↔ problem.type = .custom ∨ problem.type = .expression ∨
      ∃ n ∈ loop.factorization.graph.activeNodes, ∃ k, n.IsLeafOver k ∧
        problem.type.asked = some k := by
  have hnode : ∀ n ∈ loop.factorization.graph.activeNodes, n ∈ loop.factorization.graph.nodes :=
    fun n hn => Array.mem_toList_iff.mp (List.mem_of_mem_filter hn)
  rw [h.needsPoints, IntegralType.needsPoints_eq_true]
  -- active terminals are the descriptors of active leaves
  refine or_congr_right (or_congr_right ⟨?_, ?_⟩)
  · rintro ⟨m, hm, q, hq, hasked⟩
    obtain ⟨n, hn, hterminal⟩ := List.mem_filterMap.mp hm
    exact ⟨n, hn, q.kind, (h.isLeafOver_iff (hnode n hn)).mpr ⟨m, hterminal, q, hq, rfl⟩, hasked⟩
  · rintro ⟨n, hn, k, hover, hasked⟩
    obtain ⟨m, hterminal, q, hq, rfl⟩ := (h.isLeafOver_iff (hnode n hn)).mp hover
    exact ⟨m, List.mem_filterMap.mpr ⟨n, hn, hterminal⟩, q, hq, hasked⟩

/-- **Active leaves over coordinates are evaluated at every point**, and read no table. -/
theorem coordinate_varying
    (h : s.Lead problem elements parameters overflow points integrand loop context)
    (hn : n ∈ loop.factorization.graph.activeNodes) (hk : k.IsCoordinate) (hover : n.IsLeafOver k) :
    n.table = none ∧ n.status = .varying := by
  obtain ⟨hmem, hactive⟩ := List.mem_filter.mp hn
  obtain ⟨i, hi⟩ := Array.mem_iff_getElem?.mp (Array.mem_toList_iff.mp hmem)
  -- only terminals with a source have a table, and coordinates have none
  have htable : n.table = none := by
    by_contra hsome
    obtain ⟨t, ht⟩ := Option.ne_none_iff_exists'.mp hsome
    obtain ⟨m, hm, hreference⟩ := h.table_of_node hi ht
    obtain ⟨source, hsource, -⟩ := OptimizedTables.source_of_reference h.tables hreference
    -- the descriptor of the node is over the quantity given
    obtain ⟨m', hm', q, hq, rfl⟩ :=
      (h.isLeafOver_iff (Array.mem_toList_iff.mp hmem)).mp hover
    obtain rfl := Option.some.inj (hm.symm.trans hm')
    rw [ModifiedTerminal.tableSource_coordinate hq hk] at hsource
    cases hsource
  refine ⟨htable, ?_⟩
  -- without a table, a leaf is classified by the quantity it is over
  obtain ⟨hleaf, q, hcore, rfl⟩ := hover
  have hreads : n.ReadsPoint := by
    rw [Node.ReadsPoint, htable]
    exact ⟨q, hcore, hk.imp_right .inl⟩
  -- the node is active, and a piecewise leaf reads no point
  cases hstatus : n.status with
  | varying => rfl
  | inactive => exact absurd hstatus (of_decide_eq_true hactive)
  | piecewise =>
    rcases h.partitions.piecewise h.assigned_wellFormed hi hstatus with ⟨-, hpiecewise⟩ | ⟨hno, -⟩
    · exact absurd hreads (not_readsPoint hpiecewise)
    · rw [hleaf] at hno
      cases hno

end LoopStages.Lead

/-- **Where a loop evaluates coordinates at every point, it is said to read the points** if and
only if the type of the integral tells so for an active leaf. -/
theorem needsPoints_of_coordinate {problem : IntegralProblem R} {parameters : Parameters R}
    {overflow : Overflow} {plan : IntegralPlan R}
    (h : IntegralPlan.build problem parameters overflow = .ok plan)
    {points : Nat} {loop : LoopPlan R} (hloop : plan.loops[points]? = some loop) {n : Node R}
    (hn : n ∈ loop.factorization.graph.activeNodes) {k : GeometryKind} (hk : k.IsCoordinate)
    (hover : n.IsLeafOver k) :
    n.table = none ∧ n.status = .varying ∧
      (loop.needsPoints = true ↔ ∃ n' ∈ loop.factorization.graph.activeNodes,
        ∃ k', n'.IsLeafOver k' ∧ problem.type.Tells k') := by
  obtain ⟨integrand, s, context, -, hs, -⟩ := loop_of_plan h hloop
  obtain ⟨htable, hstatus⟩ := hs.coordinate_varying hn hk hover
  refine ⟨htable, hstatus, hs.needsPoints_iff.trans ?_⟩
  -- custom integrals and expressions tell of every kind, also of that of the given leaf
  constructor
  · rintro (hcustom | hexpression | ⟨n', hn', k', hover', hasked⟩)
    · exact ⟨n, hn, k, hover, .inl hcustom⟩
    · exact ⟨n, hn, k, hover, .inr (.inl hexpression)⟩
    · exact ⟨n', hn', k', hover', .inr (.inr hasked)⟩
  · rintro ⟨n', hn', k', hover', hcustom | hexpression | hasked⟩
    · exact .inl hcustom
    · exact .inr (.inl hexpression)
    · exact .inr (.inr ⟨n', hn', k', hover', hasked⟩)

/-! ### The integral of a coordinate -/

namespace PointTest

open Building OptimizedTables

/-- The coordinates of a point in the reference triangle. -/
def coordinates : Geometry :=
  ⟨.cellCoordinate, VertexTest.domain⟩

/-- The first of them. -/
def coordinate : Expr ℚ :=
  .unary (.indexed [.fixed 0]) (.leaf (.geometry coordinates))

/-- The coordinate is built by the constructors. -/
theorem built_coordinate : Expr.Built coordinate := by
  have hindexed : UnaryOp.apply (.indexed [.fixed 0]) (Expr.geometry coordinates : Expr ℚ) =
      .ok coordinate := by
    cbv
  exact .unary (.geometry coordinates) hindexed

def descriptor : ModifiedTerminal ℚ where
  terminal := .geometry coordinates
  physical := []
  reference := []
  component := [0]
  restriction := none
  averaged := none
  expr := coordinate

def problem (type : IntegralType) : IntegralProblem ℚ where
  type := type
  domain := VertexTest.domain
  integrands := (∅ : Std.TreeMap Nat (Expr ℚ)).insert 1 coordinate
  rank := 0
  basis := {}

/-- The graph of the integrand, with its descriptor noted. -/
def graph : ScalarGraph ℚ :=
  { (({} : ScalarGraph ℚ).push coordinate []).pushTarget 0 with
    nodes := #[{ expr := coordinate, operands := [], terminal := some descriptor }] }

/-- The graph of factors: one, and the coordinate. -/
def factors : ScalarGraph ℚ :=
  (({} : ScalarGraph ℚ).push (Expr.real Scalar.one) []).push coordinate []

/-- The coordinate is a factor without arguments. -/
def terms : TermTable :=
  collectTerms ∅ (.single [] 1) 0

def factorization : Factorization ℚ where
  graph := (terms.toList.flatMap fun x => x.2.map (·.1)).foldl useFactor factors
  arguments := []
  terms := terms
  size := 1

def node (status : NodeStatus) : Node ℚ :=
  { expr := coordinate, operands := [], terminal := some descriptor, status }

/-- The graph of factors, with descriptors and the status of the coordinate. -/
def factorsWith (status : NodeStatus) : ScalarGraph ℚ :=
  { factorization.graph with
    nodes := #[{ expr := Expr.real Scalar.one, operands := [], terminal := some VertexTest.one },
      node status] }

/-- The coordinate is in normal form. -/
theorem normalize_coordinate : (coordinate.normalize : Checked ℚ _) = .ok coordinate := by
  have hweights : coordinate.replaceWeights = .ok coordinate :=
    Expr.replaceWeights_of_weightFree (.unary (.leaf fun g hg => by cases hg; decide))
  rw [Expr.normalize_eq, hweights]
  cbv

theorem ofTargets_coordinate : ofTargets [coordinate] =
    .ok ((({} : ScalarGraph ℚ).push coordinate []).pushTarget 0) :=
  ofTargets_modified (by with_unfolding_all rfl) (by cbv) rfl

theorem describeLeaves_graph :
    ((({} : ScalarGraph ℚ).push coordinate []).pushTarget 0).describeLeaves = .ok graph := by
  cbv

/-- A coordinate has no table. -/
theorem build_tables (type : IntegralType) (elements : ElementNumbering) :
    build 1 type VertexTest.domain graph.terminals elements {} ⟨0, 0⟩ =
      .ok ({} : OptimizedTables ℚ) := by
  with_unfolding_all rfl

/-- The coordinate is no argument, so it becomes a factor as it is. -/
theorem sweep_graph {position? : NodeId → Option Nat} (h : position? 0 = none) :
    Returns (graph.sweep 0 [] position?) {} terms factorization.graph := by
  -- one is the first node, and the coordinate the second
  have hone : Returns (insert (Expr.real (Scalar.one : ℚ))) {} 0
      (({} : ScalarGraph ℚ).push (Expr.real Scalar.one) []) :=
    insert_leaf (lookup_empty _) (by cbv)
  have hg := (insert_returns wellFormed_empty hone).wellFormed
  have hcoordinate : Returns (insert coordinate)
      (({} : ScalarGraph ℚ).push (Expr.real Scalar.one) []) 1 factors :=
    insert_modified (hg.lookup_eq_none (by decide +kernel)) (by cbv) rfl
  have hnodes : Returns (graph.nodes.toList.zipIdx.foldlM (fun swept x => do
      return swept.push (← sweepNode position? 0 swept x.1 x.2)) #[]) _ #[.free 1] factors :=
    sweepNodes_cons (.free h .nil rfl hcoordinate) (returns_pure.mpr ⟨rfl, rfl⟩)
  -- the only target is the coordinate, which has no arguments
  have htargets : graph.targets = #[0] := rfl
  have hexpr : graph.expr 0 = .ok coordinate := rfl
  refine sweep_target htargets hexpr ?_ hone hnodes rfl (returns_pure.mpr ⟨rfl, rfl⟩)
  -- there are no arguments
  rw [List.forIn_nil]
  exact returns_pure.mpr ⟨rfl, rfl⟩

/-- The factor of the coordinate is the coordinate. -/
theorem factorize_graph : graph.factorize 0 = .ok factorization := by
  have hfound : graph.leafTerminals = .ok [(0, descriptor)] := by cbv
  have hleaves : sortArguments ([((0 : NodeId), descriptor)].filter (·.2.isArgument)) = [] := by
    with_unfolding_all rfl
  exact factorize_of_sweep hfound hleaves rfl rfl (sweep_graph (by simp))

theorem describeLeaves_factors :
    factorization.graph.describeLeaves = .ok (factorsWith .inactive) := by
  with_unfolding_all rfl

theorem assignTables_factors :
    (factorsWith .inactive).assignTables ({} : OptimizedTables ℚ) = factorsWith .inactive := by
  simp [assignTables, assignTable, tableOf, factorsWith]

theorem partitioned_factors :
    LoopPlan.partitioned (factorsWith .inactive) = .ok (factorsWith .varying) := by
  with_unfolding_all rfl

/-- The block of the integral. -/
def block : Block where
  arguments := []
  factors := [(1, 0)]
  isFactorPiecewise := false
  restrictions := []
  points := 1

theorem ofTerms_coordinate :
    Block.ofTerms { factorization with graph := factorsWith .varying } [] 1 = .ok [block] := by
  with_unfolding_all rfl

/-- Integrals of all types have the same loop, up to its flags. -/
theorem build_loop (type : IntegralType) : ∃ loop context,
    LoopPlan.build (problem type) (.ofExprs [coordinate]) VertexTest.parameters 1 coordinate =
        .ok (loop, context) ∧
      loop.factorization.graph = factorsWith .varying ∧
      loop.needsPoints =
        type.needsPoints ((factorsWith .varying).activeNodes.filterMap (·.terminal)) ∧
      context.unique = LoopPlan.keptTables {} (factorsWith .varying) [] := by
  -- registers are given to the two nodes
  obtain ⟨registers, hregisters⟩ : ∃ registers, (factorsWith .varying).registers
      ((factorsWith .varying).scores VertexTest.parameters) VertexTest.parameters = .ok registers :=
    ⟨_, by with_unfolding_all rfl⟩
  let loop : LoopPlan ℚ := {
    factorization := { factorization with graph := factorsWith .varying }
    blocks := Block.fileAll ∅ [block]
    needsPoints := type.needsPoints ((factorsWith .varying).activeNodes.filterMap (·.terminal))
    needsWeights := type.needsWeights VertexTest.domain
    registers := registers }
  let context : LoopContext ℚ := {
    hoisted := []
    unique := LoopPlan.keptTables {} (factorsWith .varying) []
    types := ∅
    dofmaps := LoopPlan.dofmaps ({} : OptimizedTables ℚ) }
  refine ⟨loop, context, ?_, rfl, rfl, rfl⟩
  -- the stages one after the other
  refine bind_eq_ok.mpr ⟨coordinate, lift_eq_ok.mpr normalize_coordinate, bind_eq_ok.mpr
    ⟨_, ofTargets_coordinate, bind_eq_ok.mpr ⟨graph, describeLeaves_graph,
      bind_eq_ok.mpr ⟨{}, build_tables type _, ?_⟩⟩⟩⟩
  -- there is no table that could be zero
  dsimp only
  rw [if_neg (by rw [Std.HashMap.any_eq_true_iff_exists_mem_getElem]; simp)]
  refine bind_eq_ok.mpr ⟨graph, rfl, bind_eq_ok.mpr ⟨factorization, factorize_graph, bind_eq_ok.mpr
    ⟨_, describeLeaves_factors, bind_eq_ok.mpr ⟨factorsWith .varying, ?_, bind_eq_ok.mpr
      ⟨[], rfl, bind_eq_ok.mpr ⟨[block], ofTerms_coordinate, bind_eq_ok.mpr
        ⟨registers, lift_eq_ok.mpr hregisters, ?_⟩⟩⟩⟩⟩⟩⟩
  · rw [assignTables_factors, partitioned_factors]
  · rfl

/-- Plans for the coordinate have one loop. -/
theorem build_plan (type : IntegralType) : ∃ plan loop,
    IntegralPlan.build (problem type) VertexTest.parameters = .ok plan ∧
      plan.loops[1]? = some loop ∧ loop.factorization.graph = factorsWith .varying ∧
      loop.needsPoints =
        type.needsPoints ((factorsWith .varying).activeNodes.filterMap (·.terminal)) := by
  obtain ⟨loop, context, hloop, hgraph, hneeds, hunique⟩ := build_loop type
  have hgiven : (problem type).integrands.toList = [(1, coordinate)] := by with_unfolding_all rfl
  -- no table is read, so there is none to merge
  obtain ⟨unique, hmerged⟩ : ∃ unique,
      IntegralPlan.mergeTables VertexTest.parameters.toTolerance ∅
        (LoopPlan.keptTables {} (factorsWith .varying) []) = .ok unique :=
    ⟨_, by with_unfolding_all rfl⟩
  obtain ⟨plan, hplan, hget, -⟩ := plan_of_loop hgiven hloop (hunique ▸ hmerged)
  exact ⟨plan, loop, hplan, hget, hgraph, hneeds⟩

theorem activeNodes_factors : (factorsWith .varying).activeNodes = [node .varying] := by
  with_unfolding_all rfl

theorem isLeafOver_node : (node .varying).IsLeafOver .cellCoordinate :=
  ⟨rfl, coordinates, rfl, rfl⟩

end PointTest

open PointTest in
/-- In a cell, the loop that integrates the coordinate is said to read the points. -/
theorem needsPoints_of_coordinate_cell :
    ∃ plan loop, IntegralPlan.build (problem .cell) VertexTest.parameters = .ok plan ∧
      plan.loops[1]? = some loop ∧
      node .varying ∈ loop.factorization.graph.activeNodes ∧
      GeometryKind.cellCoordinate.IsCoordinate ∧
      (node .varying).IsLeafOver .cellCoordinate ∧ loop.needsPoints = true := by
  obtain ⟨plan, loop, hplan, hloop, hgraph, -⟩ := build_plan .cell
  have hn : node .varying ∈ loop.factorization.graph.activeNodes := by
    rw [hgraph, activeNodes_factors]
    exact List.mem_singleton.mpr rfl
  obtain ⟨-, -, hneeds⟩ := needsPoints_of_coordinate hplan hloop hn (.inl rfl) isLeafOver_node
  exact ⟨plan, loop, hplan, hloop, hn, .inl rfl, isLeafOver_node,
    hneeds.mpr ⟨_, hn, _, isLeafOver_node, .inr (.inr rfl)⟩⟩

open PointTest in
/-- **On a facet**, the coordinate in the cell is evaluated at every point as well, and the loop
is not said to read the points. -/
theorem needsPoints_facet :
    ∃ plan loop, IntegralPlan.build (problem .exteriorFacet) VertexTest.parameters = .ok plan ∧
      plan.loops[1]? = some loop ∧
      node .varying ∈ loop.factorization.graph.activeNodes ∧
      (node .varying).IsLeafOver .cellCoordinate ∧ loop.needsPoints = false ∧
      Expr.Built coordinate := by
  obtain ⟨plan, loop, hplan, hloop, hgraph, hneeds⟩ := build_plan .exteriorFacet
  refine ⟨plan, loop, hplan, hloop, ?_, isLeafOver_node, ?_, built_coordinate⟩
  · rw [hgraph, activeNodes_factors]
    exact List.mem_singleton.mpr rfl
  · rw [hneeds, activeNodes_factors]
    rfl

end WeakForm
