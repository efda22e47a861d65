import WeakForm.Proofs.NormalForm
import WeakForm.Proofs.Plans

/-!
# Blocks of a plan

The terms of a loop's factorization are divided between the blocks inside the loop and
those that are hoisted out of it. Taken together, these are one block for every argument
key, so nothing of a target is lost or counted twice.

* `Block.Stands` — the block of one key;
* `ofTerms_stands` — the blocks of a factorization are those of its keys, in order;
* `IntegralPlan.blocksOf` — the blocks that belong to a loop, wherever they are filed;
* `loop_of_plan`, `blocksOf_perm` — they are the blocks that its factorization was made into;
* `sum_stands` — what they add up to;
* `blocks_cover` — the main result.
-/

namespace WeakForm

open ScalarGraph

section Blocks

variable {R : Type} [DecidableEq R]

/-! ## The block of a key -/

/-- The block of one key: its axes are the arguments of the key, each with its table, and its
factors are those of the key. -/
structure Block.Stands (tables : OptimizedTables R) (F : Factorization R) (points : Nat)
    (term : ArgumentKey × List (NodeId × Nat)) (b : Block) : Prop where
  axes : List.Forall₂ (fun position (axis : BlockArgument) => axis.position = position ∧
    ∃ m, F.arguments[position]? = some m ∧ tables.references[m.toDescriptor]? = some axis.table)
    term.1 b.arguments
  factors : b.factors = term.2
  points : b.points = points

variable {tables : OptimizedTables R} {F : Factorization R} {points : Nat}

/-- The positions of a block are its key. -/
theorem Block.Stands.positions {term : ArgumentKey × List (NodeId × Nat)} {b : Block}
    (h : b.Stands tables F points term) : b.arguments.map (·.position) = term.1 := by
  have hsame : List.Forall₂ (· = ·) (b.arguments.map (·.position)) term.1 :=
    List.forall₂_map_left_iff.mpr (h.axes.flip.imp fun _ _ haxis => haxis.1)
  rwa [List.forall₂_eq_eq_eq] at hsame

/-- The table of each argument is the one its descriptor refers to. -/
theorem argumentTables_spec {arguments : List (ModifiedTerminal R)} {found : List TableReference}
    (h : LoopPlan.argumentTables tables arguments = .ok found) :
    List.Forall₂ (fun m t => tables.references[m.toDescriptor]? = some t) arguments found := by
  refine (mapM_eq_ok.mp h).imp fun m t ht => ?_
  split at ht
  · next hm =>
    rw [hm, Except.ok.inj ht]
  · cases ht

/-- The axis for a position. -/
theorem argument_spec {found : List TableReference} {position : Nat}
    {axis : BlockArgument × Option Side}
    (htables : List.Forall₂ (fun m t => tables.references[m.toDescriptor]? = some t)
      F.arguments found)
    (h : Block.argument F found position = .ok axis) : axis.1.position = position ∧
      ∃ m, F.arguments[position]? = some m ∧
        tables.references[m.toDescriptor]? = some axis.1.table := by
  unfold Block.argument at h
  split at h
  · next m t hm ht =>
    cases h
    obtain ⟨t', ht', href⟩ := exists_right_of_getElem? htables hm
    obtain rfl : t = t' := Option.some.inj (ht.symm.trans ht')
    exact ⟨rfl, m, hm, href⟩
  · cases h

/-- **One block is made for every key**, in the order of the keys. -/
theorem ofTerms_stands {found : List TableReference} {blocks : List Block}
    (htables : LoopPlan.argumentTables tables F.arguments = .ok found)
    (h : Block.ofTerms F found points = .ok blocks) :
    List.Forall₂ (fun term b => b.Stands tables F points term) F.terms.toList blocks := by
  refine (mapM_eq_ok.mp h).imp fun term b hb => ?_
  obtain ⟨axes, haxes, hb⟩ := bind_eq_ok.mp hb
  cases hb
  refine ⟨?_, rfl, rfl⟩
  rw [List.forall₂_map_right_iff]
  exact (mapM_eq_ok.mp haxes).imp fun position axis haxis =>
    argument_spec (argumentTables_spec htables) haxis

/-! ## The blocks of a loop -/

section Loops

variable [Scalar R]

/-- The blocks that belong to the loop over `points`: those inside it, and of those outside
all loops the ones whose factors are its nodes. Each is given with the dofs it is filed
under. -/
def IntegralPlan.blocksOf (plan : IntegralPlan R) (points : Nat) (loop : LoopPlan R) :
    List (Block.Dofs × Block) :=
  loop.blocks.entries ++ plan.hoisted.entries.filter (·.2.points = points)

variable {problem : IntegralProblem R} {parameters : Parameters R} {overflow : Overflow}
  {plan : IntegralPlan R} {elements : ElementNumbering} {integrand : Expr R} {loop : LoopPlan R}
  {context : LoopContext R} {s : LoopStages R}

/-- The blocks of a loop's stages are those of the keys of its factorization. -/
theorem LoopStages.Lead.stands
    (h : s.Lead problem elements parameters overflow points integrand loop context) :
    List.Forall₂ (fun term b => b.Stands s.tables loop.factorization points term)
      loop.factorization.terms.toList s.blocks :=
  ofTerms_stands (h.vector ▸ h.arguments) h.blocks

/-- A hoisted block has the number of points of its loop. -/
theorem LoopStages.Lead.points_hoisted
    (h : s.Lead problem elements parameters overflow points integrand loop context) {b : Block}
    (hb : b ∈ context.hoisted) : b.points = points := by
  rw [h.hoisted] at hb
  obtain ⟨term, -, hstands⟩ := exists_left_of_mem h.stands (List.mem_of_mem_filter hb)
  exact hstands.points

/-- Of items with distinct keys, one has the results with its key. -/
theorem filter_flatMap_of_mem {κ α β : Type} [DecidableEq κ] {key : α → κ} {keyOf : β → κ}
    {f : α → List β} {items : List α} (hnodup : (items.map key).Nodup)
    (hkey : ∀ x ∈ items, ∀ y ∈ f x, keyOf y = key x) {x : α} (hx : x ∈ items) :
    (items.flatMap f).filter (keyOf · = key x) = f x := by
  induction items with
  | nil => cases hx
  | cons z items ih =>
    rw [List.map_cons, List.nodup_cons] at hnodup
    have hrest := fun y hy => hkey y (List.mem_cons_of_mem z hy)
    rw [List.flatMap_cons, List.filter_append]
    rcases List.mem_cons.mp hx with rfl | hx
    · -- the first item has the key, and the results of the others have other keys
      have hown : (f x).filter (keyOf · = key x) = f x :=
        List.filter_eq_self.mpr fun y hy => decide_eq_true (hkey x List.mem_cons_self y hy)
      have hothers : (items.flatMap f).filter (keyOf · = key x) = [] := by
        refine List.filter_eq_nil_iff.mpr fun y hy heq => ?_
        obtain ⟨z, hz, hy⟩ := List.mem_flatMap.mp hy
        have hzx : key z = key x := (hrest z hz y hy).symm.trans (of_decide_eq_true heq)
        exact hnodup.1 (List.mem_map.mpr ⟨z, hz, hzx⟩)
      rw [hown, hothers, List.append_nil]
    · -- the item is among the others, so the results of the first have another key
      have hfirst : (f z).filter (keyOf · = key x) = [] := by
        refine List.filter_eq_nil_iff.mpr fun y hy heq => ?_
        have hzx : key x = key z :=
          (of_decide_eq_true heq).symm.trans (hkey z List.mem_cons_self y hy)
        exact hnodup.1 (List.mem_map.mpr ⟨x, hx, hzx⟩)
      rw [hfirst, List.nil_append]
      exact ih hnodup.2 hrest hx

/-- A loop of a plan comes from the integrand with its number of points, and the blocks that
were hoisted out of it are those of the plan that have its number of points. -/
theorem loop_of_plan (h : IntegralPlan.build problem parameters overflow = .ok plan)
    (hloop : plan.loops[points]? = some loop) :
    ∃ (integrand : Expr R) (s : LoopStages R) (context : LoopContext R),
      problem.integrands[points]? = some integrand ∧
      s.Lead problem (.ofExprs problem.integrands.values) parameters overflow points integrand
        loop context ∧
      (plan.hoisted.entries.filter (·.2.points = points)).Perm
        (context.hoisted.map fun b => (b.dofs, b)) := by
  obtain ⟨made, hmade, hnodup, hstages⟩ := plan_stages h
  obtain ⟨context, hmem⟩ := (hmade.loops points loop).mp hloop
  obtain ⟨integrand, s, hgiven, hs⟩ := hstages _ hmem
  refine ⟨integrand, s, context, hgiven, hs, ?_⟩
  -- every block has the number of points of the loop that it was hoisted out of
  have hpoints : ∀ loop ∈ made, ∀ entry ∈ loop.2.2.hoisted.map fun b => (b.dofs, b),
      entry.2.points = loop.1 := by
    intro loop' hloop' entry hentry
    obtain ⟨b, hb, rfl⟩ := List.mem_map.mp hentry
    obtain ⟨_, s', -, hs'⟩ := hstages loop' hloop'
    exact hs'.points_hoisted hb
  have hone := filter_flatMap_of_mem hnodup hpoints hmem
  exact hone ▸ hmade.hoisted.filter _

/-- A block outside all loops was hoisted out of one of them. -/
theorem loop_of_hoisted (h : IntegralPlan.build problem parameters overflow = .ok plan)
    {entry : Block.Dofs × Block} (hentry : entry ∈ plan.hoisted.entries) :
    ∃ loop, plan.loops[entry.2.points]? = some loop := by
  obtain ⟨made, hmade, -, hstages⟩ := plan_stages h
  obtain ⟨⟨points, loop, context⟩, hmem, hentry⟩ :=
    List.mem_flatMap.mp (hmade.hoisted.mem_iff.mp hentry)
  obtain ⟨b, hb, rfl⟩ := List.mem_map.mp hentry
  obtain ⟨_, s, -, hs⟩ := hstages _ hmem
  have hb : b.points = points := hs.points_hoisted hb
  exact ⟨loop, (hmade.loops b.points loop).mpr ⟨context, hb ▸ hmem⟩⟩

/-- **The blocks of a loop, inside it and hoisted, are those its factorization was made
into.** -/
theorem blocksOf_perm
    (h : s.Lead problem elements parameters overflow points integrand loop context)
    (hhoisted : (plan.hoisted.entries.filter (·.2.points = points)).Perm
      (context.hoisted.map fun b => (b.dofs, b))) :
    (plan.blocksOf points loop).Perm (s.blocks.map fun b => (b.dofs, b)) := by
  -- files hold the blocks that they are made from
  have hinside : loop.blocks.entries.Perm
      ((s.blocks.filter fun b => !b.isHoisted (problem.type.expectsWeight problem.domain)).map
        fun b => (b.dofs, b)) := by
    rw [h.inside]
    exact Block.entries_fileAll ∅ _
  rw [h.hoisted] at hhoisted
  -- the hoisted blocks and those inside the loop are all of them
  have hboth := (hinside.append hhoisted).trans List.perm_append_comm
  rw [← List.map_append] at hboth
  exact hboth.trans ((List.filter_append_perm _ s.blocks).map _)

end Loops

/-! ## What the blocks of a loop add up to -/

section Values

variable {K : Type} [Field K] {v : NodeId → K} {c : Nat}

/-- What a block adds to a target component: every factor of the component times the
arguments of the block. -/
def Block.value (v : NodeId → K) (c : Nat) (b : Block) : K :=
  ((b.factors.filter (·.2 = c)).map fun use =>
    v use.1 * (b.arguments.map fun axis => v axis.position).prod).sum

/-- A block has the value of the term it stands for. -/
theorem Block.Stands.value {term : ArgumentKey × List (NodeId × Nat)} {b : Block}
    (h : b.Stands tables F points term) :
    b.value v c = TermTable.usesValue v c term.1 term.2 := by
  have harguments : (b.arguments.map fun axis => v axis.position) = term.1.map v := by
    rw [← h.positions, List.map_map]
    rfl
  rw [Block.value, harguments, h.factors]
  rfl

/-- The blocks of a factorization add up to its terms. -/
theorem sum_stands {blocks : List Block}
    (h : List.Forall₂ (fun term b => b.Stands tables F points term) F.terms.toList blocks) :
    (blocks.map (Block.value v c)).sum = TermTable.componentValue v c F.terms := by
  rw [TermTable.componentValue, mapSum]
  generalize F.terms.toList = terms at h ⊢
  induction h with
  | nil => rfl
  | cons hfirst _ ih =>
    rw [List.map_cons, List.map_cons, List.sum_cons, List.sum_cons, hfirst.value, ih]

end Values

/-! ## The main result -/

section Cover

variable [Scalar R] {problem : IntegralProblem R} {parameters : Parameters R}
  {overflow : Overflow} {plan : IntegralPlan R}

/-- The tables of the loop over one integrand are those of the leaves of its graph. -/
def IntegralProblem.HasTables (problem : IntegralProblem R) (parameters : Parameters R)
    (overflow : Overflow) (points : Nat) (integrand : Expr R) (tables : OptimizedTables R) : Prop :=
  ∃ (e : Expr R) (scalar described : ScalarGraph R), integrand.normalize = .ok e ∧
    ScalarGraph.ofTargets [e] = .ok scalar ∧ scalar.describeLeaves = .ok described ∧
    OptimizedTables.build points problem.type problem.domain described.terminals
      (.ofExprs problem.integrands.values) problem.basis parameters.toTolerance overflow =
        .ok tables

/-- **Blocks cover the factorization of every loop exactly once.** The blocks of a loop,
inside it and outside all loops, are one for every argument key, with the arguments and the
factors of the key, filed under the dofs of its axes. There are no other blocks, and together
they add up to every target component. -/
theorem blocks_cover (h : IntegralPlan.build problem parameters overflow = .ok plan) :
    (∀ points, points ∈ plan.loops ↔ points ∈ problem.integrands) ∧
    (∀ entry ∈ plan.hoisted.entries, entry.2.points ∈ plan.loops) ∧
    ∀ (points : Nat) (loop : LoopPlan R), plan.loops[points]? = some loop →
      (∃ (integrand : Expr R) (tables : OptimizedTables R) (blocks : List Block),
        problem.integrands[points]? = some integrand ∧
        problem.HasTables parameters overflow points integrand tables ∧
        List.Forall₂ (fun term b => b.Stands tables loop.factorization points term)
          loop.factorization.terms.toList blocks ∧
        (plan.blocksOf points loop).Perm (blocks.map fun b => (b.dofs, b))) ∧
      ∀ {K : Type} [Field K] {M : Model R K}, M.Exact → ∀ (σ : Env) (v : NodeId → K),
        loop.factorization.graph.ReadBy M σ v → ∀ c, ∃ r,
          loop.factorization.rebuild c = .ok r ∧
          r.value M [] σ =
            ((plan.blocksOf points loop).map fun entry => entry.2.value v c).sum := by
  refine ⟨fun points => ?_, fun entry hentry => ?_, fun points loop hloop => ?_⟩
  · -- loops and integrands have the same numbers of points
    obtain ⟨made, hmade, hall⟩ := plan_made h
    rw [Std.TreeMap.mem_iff_isSome_getElem?, Std.TreeMap.mem_iff_isSome_getElem?]
    constructor
    · intro hsome
      obtain ⟨loop, hloop⟩ := Option.isSome_iff_exists.mp hsome
      obtain ⟨integrand, -, -, hintegrand, -⟩ := loop_of_plan h hloop
      rw [hintegrand]
      rfl
    · intro hsome
      obtain ⟨integrand, hintegrand⟩ := Option.isSome_iff_exists.mp hsome
      obtain ⟨⟨points', loop, context⟩, hmem, rfl, -⟩ := exists_left_of_mem hall.flip
        (Std.TreeMap.mem_toList_iff_getElem?_eq_some.mpr hintegrand)
      rw [(hmade.loops points' loop).mpr ⟨context, hmem⟩]
      rfl
  · -- a block outside all loops belongs to one of them
    obtain ⟨loop, hloop⟩ := loop_of_hoisted h hentry
    rw [Std.TreeMap.mem_iff_isSome_getElem?, hloop]
    rfl
  · -- the blocks of one loop
    obtain ⟨integrand, s, context, hintegrand, hs, hhoisted⟩ := loop_of_plan h hloop
    have hperm := blocksOf_perm hs hhoisted
    have htables : problem.HasTables parameters overflow points integrand s.tables :=
      ⟨s.integrand, s.scalar, s.described, hs.normalized, hs.scalarized, hs.described, hs.tables⟩
    refine ⟨⟨integrand, s.tables, s.blocks, hintegrand, htables, hs.stands, hperm⟩, ?_⟩
    -- what they add up to is what the factorization is rebuilt to
    intro K _ M hM σ v hv c
    have hformed := hs.formed
    obtain ⟨r, hr, hvalue⟩ := Factorization.rebuild_value hM
      (fun i e he => hformed.wellFormed.expr_scalar he) hformed.length_le hv hformed.within c
    refine ⟨r, hr, ?_⟩
    have hsum := (hperm.map fun entry => entry.2.value v c).sum_eq
    rw [List.map_map] at hsum
    rw [hvalue, hsum]
    exact (sum_stands hs.stands).symm

end Cover

end Blocks

/-! ### A test function at the vertices of a triangle -/

namespace VertexTest

open SingleTest (test descriptor)
open ScaledTest

/-- The values of a test function at the vertices, times the volume and over it. -/
def problem : IntegralProblem ℚ where
  type := .vertex
  domain := domain
  integrands := (∅ : Std.TreeMap Nat (Expr ℚ)).insert 1 form
  rank := 1
  basis := basis

def parameters : Parameters ℚ where
  rtol := 0
  atol := 0
  maxRegisters := 1
  scoreThreshold := 1
  expensiveMultiplier := 1

/-- The descriptor of the factor one. -/
def one : ModifiedTerminal ℚ where
  terminal := .literal (.real 1)
  physical := []
  reference := []
  component := []
  restriction := none
  averaged := none
  expr := Expr.real Scalar.one

/-- The graph of factors, with the table of the test function and the status of the others. -/
def factorsWith (table : Option TableReference) (status : NodeStatus) : ScalarGraph ℚ :=
  { factorization.graph with
    nodes := #[
      { expr := test, operands := [], terminal := some descriptor, table },
      { expr := Expr.real Scalar.one, operands := [], terminal := some one, status },
      { expr := volume, operands := [], terminal := some volumeDescriptor, status },
      { expr := perVolume, operands := [1, 2], status },
      { expr := factor, operands := [2, 3], status }] }

/-- The graph of the loop: the factor is evaluated once. -/
def loopGraph : ScalarGraph ℚ :=
  factorsWith (some reference) .piecewise

/-- The form is its own normal form. -/
theorem normalize_form : (form.normalize : Checked ℚ _) = .ok form := by
  have hvolume : volume.WeightFree := .leaf fun g hg => by cases hg; decide
  have hweights : form.replaceWeights = .ok form :=
    Expr.replaceWeights_of_weightFree
      (.binary (.binary hvolume (.leaf nofun)) (.binary (.leaf nofun) hvolume))
  rw [Expr.normalize_eq, hweights]
  cbv

theorem describeLeaves_graph :
    graph.describeLeaves = .ok (noted (some volumeDescriptor) (some descriptor)) := by
  cbv

theorem factorize_described :
    (noted (some volumeDescriptor) (some descriptor)).factorize 1 = .ok factorization :=
  factorize_noted (by cbv)

theorem describeLeaves_factors :
    factorization.graph.describeLeaves = .ok (factorsWith none .inactive) := by
  with_unfolding_all rfl

/-- No reference is to a table of zeros. -/
theorem noZeros : (tables.references.any fun _ t => t.type = .zeros) = false := by
  rw [Std.HashMap.any_eq_false_iff_forall_mem_getKey_getElem]
  -- there is one reference
  intro d hd
  have hreference : reference = tables.references[d] := by
    rw [tables] at hd
    rcases Std.HashMap.mem_insert.mp hd with hd | hd
    · obtain rfl := eq_of_beq hd
      exact Std.HashMap.getElem_insert_self.symm
    · exact absurd hd Std.HashMap.not_mem_empty
  rw [← hreference]
  rfl

/-- The table of the test function is filled in where the test function stands. -/
theorem assignTables_factors :
    (factorsWith none .inactive).assignTables tables =
      factorsWith (some reference) .inactive := by
  have hone : tables.references[one.toDescriptor]? = none := by
    simp [tables, one, descriptor]
  have hvolume : tables.references[volumeDescriptor.toDescriptor]? = none := by
    simp [tables, volumeDescriptor, descriptor]
  simp [assignTables, assignTable, tableOf, factorsWith, hone, hvolume, reference_test]

/-- All factors vary with the test function or not at all, as they are classified. -/
theorem partitioned_factors :
    LoopPlan.partitioned (factorsWith (some reference) .inactive) = .ok loopGraph := by
  with_unfolding_all rfl

/-- The argument has the one table. -/
theorem argumentTables_test :
    LoopPlan.argumentTables tables factorization.arguments = .ok [reference] := by
  show LoopPlan.argumentTables tables [descriptor] = .ok [reference]
  simp only [LoopPlan.argumentTables, List.mapM_cons, List.mapM_nil, reference_test]
  rfl

/-- The block of the test function. -/
def block : Block where
  arguments := [⟨0, reference⟩]
  factors := [(4, 0)]
  isFactorPiecewise := true
  restrictions := [none]
  points := 1

theorem ofTerms_test :
    Block.ofTerms { factorization with graph := loopGraph } [reference] 1 = .ok [block] := by
  with_unfolding_all rfl

/-- The loop over the points of a vertex is planned, and its block is hoisted. -/
theorem build_loop : ∃ loop context,
    LoopPlan.build problem (.ofExprs [form]) parameters 1 form = .ok (loop, context) ∧
      context.hoisted = [block] ∧
      context.unique = LoopPlan.keptTables tables loopGraph [reference] := by
  obtain ⟨registers, hregisters⟩ : ∃ registers,
      loopGraph.registers (loopGraph.scores parameters) parameters = .ok registers :=
    ⟨_, by with_unfolding_all rfl⟩
  let loop : LoopPlan ℚ := {
    factorization := { factorization with graph := loopGraph }
    blocks := ∅
    needsPoints := problem.type.needsPoints (loopGraph.activeNodes.filterMap (·.terminal))
    needsWeights := problem.type.needsWeights problem.domain
    registers := registers }
  let context : LoopContext ℚ := {
    hoisted := [block]
    unique := LoopPlan.keptTables tables loopGraph [reference]
    types := tables.types
    dofmaps := LoopPlan.dofmaps tables }
  refine ⟨loop, context, ?_, rfl, rfl⟩
  refine bind_eq_ok.mpr ⟨form, lift_eq_ok.mpr normalize_form, bind_eq_ok.mpr
    ⟨graph, ofTargets_form, bind_eq_ok.mpr ⟨_, describeLeaves_graph,
      bind_eq_ok.mpr ⟨tables, build_tables, ?_⟩⟩⟩⟩
  -- no table is zero
  dsimp only
  rw [if_neg (by rw [noZeros]; exact Bool.false_ne_true)]
  refine bind_eq_ok.mpr ⟨_, rfl, ?_⟩
  refine bind_eq_ok.mpr ⟨factorization, factorize_described, bind_eq_ok.mpr
    ⟨_, describeLeaves_factors, bind_eq_ok.mpr ⟨loopGraph, ?_, bind_eq_ok.mpr
      ⟨[reference], argumentTables_test, bind_eq_ok.mpr ⟨[block], ofTerms_test, bind_eq_ok.mpr
        ⟨registers, lift_eq_ok.mpr hregisters, rfl⟩⟩⟩⟩⟩⟩
  rw [assignTables_factors, partitioned_factors]

/-- The plan of the problem has the block. -/
theorem build_plan : ∃ plan, IntegralPlan.build problem parameters = .ok plan ∧
    (block.dofs, block) ∈ plan.hoisted.entries := by
  obtain ⟨loop, context, hloop, hhoisted, hunique⟩ := build_loop
  -- there is one loop, so the plan is what it leaves
  have hgiven : problem.integrands.toList = [(1, form)] := by with_unfolding_all rfl
  obtain ⟨unique, hmerged⟩ : ∃ unique, IntegralPlan.mergeTables parameters.toTolerance ∅
      (LoopPlan.keptTables tables loopGraph [reference]) = .ok unique :=
    ⟨_, by with_unfolding_all rfl⟩
  obtain ⟨plan, hplan, -, hfiled⟩ := plan_of_loop hgiven hloop (hunique ▸ hmerged)
  refine ⟨plan, hplan, ?_⟩
  rw [hfiled, hhoisted, (Block.entries_fileAll ∅ [block]).mem_iff]
  exact List.mem_append_right _ (List.mem_singleton.mpr rfl)

end VertexTest

/-- At the vertices of a triangle, the blocks of the loop cover what the form factorizes into,
and add up to the form. -/
theorem blocks_cover_vertexTest :
    ∃ plan, IntegralPlan.build VertexTest.problem VertexTest.parameters = .ok plan ∧
      (VertexTest.block.dofs, VertexTest.block) ∈ plan.hoisted.entries ∧
      ∃ loop, plan.loops[1]? = some loop ∧
        (∃ (tables : OptimizedTables ℚ) (blocks : List Block),
          List.Forall₂ (fun term b => b.Stands tables loop.factorization 1 term)
            loop.factorization.terms.toList blocks ∧
          (plan.blocksOf 1 loop).Perm (blocks.map fun b => (b.dofs, b))) ∧
        ∃ r v, loop.factorization.rebuild 0 = .ok r ∧
          r.value ScaledTest.model [] (fun _ => 0) =
            ((plan.blocksOf 1 loop).map fun entry => entry.2.value v 0).sum := by
  obtain ⟨plan, hplan, hentry⟩ := VertexTest.build_plan
  obtain ⟨hloops, -, hcover⟩ := blocks_cover hplan
  have hmem : 1 ∈ plan.loops := (hloops 1).mpr (by rw [VertexTest.problem]; simp)
  obtain ⟨loop, hloop⟩ :=
    Option.isSome_iff_exists.mp (Std.TreeMap.mem_iff_isSome_getElem?.mp hmem)
  obtain ⟨⟨-, tables, blocks, -, -, hstands, hperm⟩, hvalue⟩ := hcover 1 loop hloop
  obtain ⟨v, hv⟩ := loop.factorization.graph.exists_readBy ScaledTest.model (fun _ => 0)
  obtain ⟨r, hr, heq⟩ := hvalue Model.rational_exact (fun _ => 0) v hv 0
  exact ⟨plan, hplan, hentry, loop, hloop, ⟨tables, blocks, hstands, hperm⟩, r, v, hr, heq⟩

end WeakForm
