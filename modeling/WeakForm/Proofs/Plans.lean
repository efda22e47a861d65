import WeakForm.Integral.Plan
import WeakForm.Proofs.FactorGraph
import WeakForm.Proofs.Filing
import WeakForm.Proofs.MergedTables
import WeakForm.Proofs.Partition
import WeakForm.Proofs.TableFits

/-!
# How plans are made

The plan of a loop is made in stages, of which each starts from what the stage before
returned, and the plan of an integral adds its loops one after the other. The tables of a loop
have names that tell its number of points, so loops have no table in common.

* `LoopStages`, `loop_stages` — what the stages of a loop return;
* `LoopStages.Lead.formed`, `LoopStages.Lead.partitions` — the graph of factors of a loop;
* `IntegralPlan.MadeOf`, `plan_made` — the loops of a plan are those of its integrands, the
  hoisted blocks of all loops are filed together, and the tables of all loops are there;
* `IntegralProblem.Staged`, `plan_stages` — the stages of all loops;
* `plan_of_loop` — the plan of one integrand.
-/

namespace WeakForm

open ScalarGraph

variable {R : Type} [DecidableEq R] [Scalar R]

/-- A step that is taken in one of two ways, before what follows. -/
theorem ite_bind_eq_ok {ε α β : Type} {c : Prop} [Decidable c] {x y : Except ε α}
    {f : α → Except ε β} {b : β} : (if c then x >>= f else y >>= f) = .ok b ↔
      ∃ a, (if c then x else y) = .ok a ∧ f a = .ok b := by
  rw [← bind_eq_ok]
  split
  · exact Iff.rfl
  · exact Iff.rfl

/-! ## The stages of a loop -/

/-- What the stages of a loop return. -/
structure LoopStages (R : Type) [DecidableEq R] where
  /-- The integrand in normal form. -/
  integrand : Expr R
  /-- Its scalar graph. -/
  scalar : ScalarGraph R
  /-- The graph with the descriptor of every leaf. -/
  described : ScalarGraph R
  tables : OptimizedTables R
  /-- The graph without zero tables. -/
  reduced : ScalarGraph R
  factorization : Factorization R
  /-- The graph of factors with the descriptor of every leaf. -/
  factors : ScalarGraph R
  /-- The table of each argument. -/
  arguments : List TableReference
  blocks : List Block

/-- The stages lead from an integrand to the plan of its loop. -/
structure LoopStages.Lead (s : LoopStages R) (problem : IntegralProblem R)
    (elements : ElementNumbering) (parameters : Parameters R) (overflow : Overflow) (points : Nat)
    (integrand : Expr R) (loop : LoopPlan R) (context : LoopContext R) : Prop where
  normalized : (integrand.normalize : Checked R _) = .ok s.integrand
  scalarized : ScalarGraph.ofTargets [s.integrand] = .ok s.scalar
  described : s.scalar.describeLeaves = .ok s.described
  tables : OptimizedTables.build points problem.type problem.domain s.described.terminals elements
    problem.basis parameters.toTolerance overflow = .ok s.tables
  reduced : (s.reduced = s.described ∧
      (s.tables.references.any fun _ t => t.type = .zeros) = false) ∨
    s.described.eliminateZeros s.tables = .ok s.reduced
  factorized : s.reduced.factorize problem.rank = .ok s.factorization
  factors : s.factorization.graph.describeLeaves = .ok s.factors
  partitioned : LoopPlan.partitioned (s.factors.assignTables s.tables) =
    .ok loop.factorization.graph
  terms : loop.factorization.terms = s.factorization.terms
  vector : loop.factorization.arguments = s.factorization.arguments
  arguments : LoopPlan.argumentTables s.tables s.factorization.arguments = .ok s.arguments
  blocks : Block.ofTerms loop.factorization s.arguments points = .ok s.blocks
  hoisted : context.hoisted =
    s.blocks.filter (·.isHoisted (problem.type.expectsWeight problem.domain))
  inside : loop.blocks = Block.fileAll ∅
    (s.blocks.filter fun b => !b.isHoisted (problem.type.expectsWeight problem.domain))
  needsPoints : loop.needsPoints =
    problem.type.needsPoints (loop.factorization.graph.activeNodes.filterMap (·.terminal))
  unique : context.unique = LoopPlan.keptTables s.tables loop.factorization.graph s.arguments
  types : context.types = s.tables.types

/-- **The plan of a loop is made in stages.** -/
theorem loop_stages {problem : IntegralProblem R} {elements : ElementNumbering}
    {parameters : Parameters R} {overflow : Overflow} {points : Nat} {integrand : Expr R}
    {loop : LoopPlan R} {context : LoopContext R}
    (h : LoopPlan.build problem elements parameters points integrand overflow =
      .ok (loop, context)) :
    ∃ s : LoopStages R,
      s.Lead problem elements parameters overflow points integrand loop context := by
  unfold LoopPlan.build at h
  -- every step of the build has succeeded, and its result is kept
  obtain ⟨e, he, h⟩ := bind_eq_ok.mp h
  obtain ⟨scalar, hscalar, h⟩ := bind_eq_ok.mp h
  obtain ⟨described, hdescribed, h⟩ := bind_eq_ok.mp h
  obtain ⟨tables, htables, h⟩ := bind_eq_ok.mp h
  dsimp only at h
  obtain ⟨reduced, hreduced, h⟩ := ite_bind_eq_ok.mp h
  obtain ⟨factorization, hfactorization, h⟩ := bind_eq_ok.mp h
  obtain ⟨factors, hfactors, h⟩ := bind_eq_ok.mp h
  obtain ⟨graph, hgraph, h⟩ := bind_eq_ok.mp h
  obtain ⟨arguments, harguments, h⟩ := bind_eq_ok.mp h
  obtain ⟨blocks, hblocks, h⟩ := bind_eq_ok.mp h
  obtain ⟨registers, -, h⟩ := bind_eq_ok.mp h
  rw [List.partition_eq_filter_filter] at h
  cases h
  refine ⟨⟨e, scalar, described, tables, reduced, factorization, factors, arguments, blocks⟩,
    lift_eq_ok.mp he, hscalar, hdescribed, htables, ?_, hfactorization, hfactors, hgraph, rfl, rfl,
    harguments, hblocks, rfl, rfl, rfl, rfl, rfl⟩
  -- without zero tables the graph is left as it is
  split at hreduced
  · exact .inr hreduced
  · next hzeros => exact .inl ⟨(Except.ok.inj hreduced).symm, Bool.eq_false_iff.mpr hzeros⟩

/-! ## The graph of factors of a loop -/

omit [Scalar R] in
/-- Noting what nodes are read for keeps the factors formed. -/
theorem ScalarGraph.FactorsFormed.reannotate {arguments : List (ModifiedTerminal R)}
    {terms : TermTable} {g g' : ScalarGraph R} (h : FactorsFormed arguments terms g)
    (hsame : g.Reannotates g') (hg' : g'.WellFormed) : FactorsFormed arguments terms g' := by
  refine ⟨hg', fun p m hm => hsame.expr.mpr (h.argument p m hm), fun key uses hu use huse => ?_⟩
  rw [hsame.size]
  exact h.within key uses hu use huse

omit [Scalar R] in
/-- A partitioned graph is one that the partition returns. -/
theorem partitioned_returns {g g' : ScalarGraph R} (h : LoopPlan.partitioned g = .ok g') :
    Building.Returns ScalarGraph.partition g () g' := by
  unfold LoopPlan.partitioned at h
  split at h
  · next u g₁ hr =>
    cases h
    exact hr
  · cases h

namespace LoopStages.Lead

variable {s : LoopStages R} {problem : IntegralProblem R} {elements : ElementNumbering}
  {parameters : Parameters R} {overflow : Overflow} {points : Nat} {integrand : Expr R}
  {loop : LoopPlan R} {context : LoopContext R}

/-- The graph that is factorized is built by insertions. -/
theorem reduced_wellFormed
    (h : s.Lead problem elements parameters overflow points integrand loop context) :
    s.reduced.WellFormed := by
  rcases h.reduced with ⟨hsame, -⟩ | heliminated
  · rw [hsame]
    exact ScalarGraph.describeLeaves_wellFormed (ofTargets_wellFormed h.scalarized) h.described
  · obtain ⟨es, -, heliminated⟩ := bind_eq_ok.mp heliminated
    obtain ⟨targets, -, htargets⟩ := bind_eq_ok.mp heliminated
    exact ofTargets_wellFormed htargets

/-- Before its nodes have statuses, the graph of factors is well formed. -/
theorem assigned_wellFormed
    (h : s.Lead problem elements parameters overflow points integrand loop context) :
    (s.factors.assignTables s.tables).WellFormed := by
  have hfactors := ScalarGraph.factorize_formed h.reduced_wellFormed h.factorized
  exact assignTables_wellFormed (describeLeaves_wellFormed hfactors.wellFormed h.factors) s.tables

/-- The statuses of a loop's nodes are noted by the forward sweep. -/
theorem partitions
    (h : s.Lead problem elements parameters overflow points integrand loop context) :
    (s.factors.assignTables s.tables).Partitions loop.factorization.graph :=
  partition_returns h.assigned_wellFormed (partitioned_returns h.partitioned)

/-- **The graph of a loop**: the argument vector, and the factors of its terms. -/
theorem formed (h : s.Lead problem elements parameters overflow points integrand loop context) :
    FactorsFormed loop.factorization.arguments loop.factorization.terms
      loop.factorization.graph := by
  rw [h.terms, h.vector]
  have hfactors := ScalarGraph.factorize_formed h.reduced_wellFormed h.factorized
  have hsame := ((describeLeaves_reannotates h.factors).trans
    (assignTables_reannotates s.factors s.tables)).trans h.partitions.reannotates
  exact hfactors.reannotate hsame (h.partitions.wellFormed h.assigned_wellFormed)

/-- The tables of a loop have names at its number of points. -/
theorem namedAt (h : s.Lead problem elements parameters overflow points integrand loop context) :
    context.NamedAt points := by
  obtain ⟨hunique, htypes⟩ := OptimizedTables.build_ofPoints h.tables
  refine ⟨fun name hname => hunique name ?_, fun name hname => htypes name ?_⟩
  · -- what a loop reads are some of its tables
    rw [h.unique, LoopPlan.keptTables] at hname
    exact Std.TreeMap.mem_of_mem_filter hname
  · rwa [h.types] at hname

end LoopStages.Lead

/-! ## The loops of a plan -/

/-- The plan has the given loops and no others, the blocks that were hoisted out of each, and
the tables of all. -/
structure IntegralPlan.MadeOf (plan : IntegralPlan R)
    (made : List (Nat × LoopPlan R × LoopContext R)) : Prop where
  loops : ∀ (points : Nat) (loop : LoopPlan R), plan.loops[points]? = some loop ↔
    ∃ context, (points, loop, context) ∈ made
  hoisted : plan.hoisted.entries.Perm
    (made.flatMap fun loop => loop.2.2.hoisted.map fun b => (b.dofs, b))
  unique : ∀ (name : String) (t : Table R), plan.unique[name]? = some t ↔
    ∃ loop ∈ made, loop.2.2.unique[name]? = some t
  types : ∀ (name : String) (t : TableType), plan.types[name]? = some t ↔
    ∃ loop ∈ made, loop.2.2.types[name]? = some t

/-- A loop with a new number of points is added to those that the plan has. -/
theorem addLoop_made {plan plan' : IntegralPlan R}
    {made : List (Nat × LoopPlan R × LoopContext R)} {points : Nat} {loop : LoopPlan R}
    {context : LoopContext R} (hplan : plan.MadeOf made) (hnew : points ∉ made.map (·.1))
    (hmade : ∀ loop ∈ made, loop.2.2.NamedAt loop.1) (hcontext : context.NamedAt points)
    (h : plan.addLoop points loop context = .ok plan') :
    plan'.MadeOf (made ++ [(points, loop, context)]) := by
  obtain ⟨unique, hunique, h⟩ := bind_eq_ok.mp h
  cases h
  -- names of tables end in the number of points, so none of them is taken
  have hnewTable := not_mem_of_points hplan.unique (fun loop hloop => (hmade loop hloop).unique)
    hcontext.unique hnew
  have hnewType := not_mem_of_points hplan.types (fun loop hloop => (hmade loop hloop).types)
    hcontext.types hnew
  have htables := adds_append (f := fun loop => loop.2.2.unique) (x := (points, loop, context))
    (mergeTables_adds hnewTable hunique) hplan.unique
  have htypes := adds_append (f := fun loop => loop.2.2.types) (x := (points, loop, context))
    (adds_foldl_insert hnewType) hplan.types
  refine ⟨fun points' loop' => ?_, ?_, htables, htypes⟩
  · simp only [Std.TreeMap.getElem?_insert, Nat.compare_eq_eq, List.mem_append,
      List.mem_singleton, Prod.mk.injEq]
    split
    · -- the loop that is added; none with its number of points was there
      next heq =>
      subst heq
      constructor
      · intro hloop
        exact ⟨context, .inr ⟨rfl, (Option.some.inj hloop).symm, rfl⟩⟩
      · rintro ⟨context', hmem | ⟨-, rfl, -⟩⟩
        · exact absurd (List.mem_map_of_mem (f := (·.1)) hmem) hnew
        · rfl
    · -- the loops that were there
      next hne =>
      rw [hplan.loops]
      refine exists_congr fun context' => ⟨.inl, ?_⟩
      rintro (hmem | ⟨heq, -, -⟩)
      · exact hmem
      · exact absurd heq.symm hne
  · -- hoisted blocks are filed behind those that were there
    have hfiled := Block.entries_fileAll plan.hoisted context.hoisted
    rw [List.flatMap_append, List.flatMap_singleton]
    exact hfiled.trans (hplan.hoisted.append_right _)

omit [Scalar R] in
/-- The numbers of points of loops are those of the integrands, so all are distinct. -/
theorem points_nodup {problem : IntegralProblem R} {made : List (Nat × LoopPlan R × LoopContext R)}
    (h : List.Forall₂ (fun given loop => loop.1 = given.1) problem.integrands.toList made) :
    (made.map (·.1)).Nodup := by
  have hpoints : made.map (·.1) = problem.integrands.keys := by
    rw [← Std.TreeMap.map_fst_toList_eq_keys]
    have hsame : List.Forall₂ (· = ·) (made.map (·.1)) (problem.integrands.toList.map (·.1)) :=
      List.forall₂_map_left_iff.mpr
        (List.forall₂_map_right_iff.mpr h.flip)
    rwa [List.forall₂_eq_eq_eq] at hsame
  rw [hpoints]
  exact Std.TreeMap.nodup_keys

/-- **The plan of an integral** has a loop for every integrand and no others, with the blocks and
the tables of each. -/
theorem plan_made {problem : IntegralProblem R} {parameters : Parameters R} {overflow : Overflow}
    {plan : IntegralPlan R} (h : IntegralPlan.build problem parameters overflow = .ok plan) :
    ∃ made : List (Nat × LoopPlan R × LoopContext R), plan.MadeOf made ∧
      List.Forall₂ (fun (given : Nat × Expr R) loop => loop.1 = given.1 ∧
        LoopPlan.build problem (.ofExprs problem.integrands.values) parameters given.1 given.2
          overflow = .ok loop.2) problem.integrands.toList made := by
  obtain ⟨made, hmade, h⟩ := bind_eq_ok.mp h
  have hall : List.Forall₂ (fun (given : Nat × Expr R) loop => loop.1 = given.1 ∧
      LoopPlan.build problem (.ofExprs problem.integrands.values) parameters given.1 given.2
        overflow = .ok loop.2) problem.integrands.toList made := by
    -- each loop is the build of an integrand with its number of points
    refine (mapM_eq_ok.mp hmade).imp fun given loop hloop => ?_
    obtain ⟨built, hbuilt, hloop⟩ := bind_eq_ok.mp hloop
    cases hloop
    exact ⟨rfl, hbuilt⟩
  refine ⟨made, ?_, hall⟩
  have hnodup := points_nodup (hall.imp fun _ _ hloop => hloop.1)
  -- so the names of each loop tell its number of points
  have hnamed : ∀ loop ∈ made, loop.2.2.NamedAt loop.1 := by
    rintro ⟨points, loop, context⟩ hloop
    obtain ⟨given, -, rfl, hbuilt⟩ := exists_left_of_mem hall hloop
    obtain ⟨s, hs⟩ := loop_stages hbuilt
    exact hs.namedAt
  refine foldlM_ok_induct (P := fun done plan => plan.MadeOf done) ?_ ?_ h
  -- the empty plan is made of no loops
  · exact ⟨fun points loop => by simp, .refl _, fun name t => by simp, fun name t => by simp⟩
  · -- no loop with the same number of points was added before
    intro done loop plan₁ plan₂ hpre hplan hadd
    have hloop := hpre.subset (List.mem_append_right _ (List.mem_singleton.mpr rfl))
    refine addLoop_made hplan ?_
      (fun loop' hloop' => hnamed loop' (hpre.subset (List.mem_append_left _ hloop')))
      (hnamed loop hloop) hadd
    have hsub := (hpre.map (·.1)).sublist.nodup hnodup
    rw [List.map_append, List.nodup_append] at hsub
    intro hmem
    exact hsub.2.2 _ hmem _ (List.mem_singleton.mpr rfl) rfl

/-- The loop is that of an integrand of the problem, made in stages. -/
def IntegralProblem.Staged (problem : IntegralProblem R) (parameters : Parameters R)
    (overflow : Overflow) (loop : Nat × LoopPlan R × LoopContext R) : Prop :=
  ∃ (integrand : Expr R) (s : LoopStages R), problem.integrands[loop.1]? = some integrand ∧
    s.Lead problem (.ofExprs problem.integrands.values) parameters overflow loop.1 integrand
      loop.2.1 loop.2.2

/-- The loops of a plan, each with the stages that lead to it. -/
theorem plan_stages {problem : IntegralProblem R} {parameters : Parameters R} {overflow : Overflow}
    {plan : IntegralPlan R} (h : IntegralPlan.build problem parameters overflow = .ok plan) :
    ∃ made : List (Nat × LoopPlan R × LoopContext R), plan.MadeOf made ∧ (made.map (·.1)).Nodup ∧
      ∀ loop ∈ made, problem.Staged parameters overflow loop := by
  obtain ⟨made, hmade, hall⟩ := plan_made h
  refine ⟨made, hmade, points_nodup (hall.imp fun _ _ hloop => hloop.1), ?_⟩
  rintro ⟨points, loop, context⟩ hloop
  obtain ⟨⟨points', integrand⟩, hgiven, rfl, hbuilt⟩ := exists_left_of_mem hall hloop
  obtain ⟨s, hs⟩ := loop_stages hbuilt
  exact ⟨integrand, s, Std.TreeMap.mem_toList_iff_getElem?_eq_some.mp hgiven, hs⟩

/-- The plan of an integral with one integrand has its loop, with the blocks that are hoisted
out of it. -/
theorem plan_of_loop {problem : IntegralProblem R} {parameters : Parameters R} {points : Nat}
    {integrand : Expr R} {loop : LoopPlan R} {context : LoopContext R}
    {unique : Std.TreeMap String (Table R)}
    (hgiven : problem.integrands.toList = [(points, integrand)])
    (hloop : LoopPlan.build problem (.ofExprs [integrand]) parameters points integrand =
      .ok (loop, context))
    (hmerged : IntegralPlan.mergeTables parameters.toTolerance ∅ context.unique = .ok unique) :
    ∃ plan, IntegralPlan.build problem parameters = .ok plan ∧
      plan.loops[points]? = some loop ∧ plan.hoisted = Block.fileAll ∅ context.hoisted := by
  have hvalues : problem.integrands.values = [integrand] := by
    rw [values_eq_map, hgiven]
    rfl
  unfold IntegralPlan.build
  rw [hgiven, hvalues]
  simp only [List.mapM_cons, List.mapM_nil, hloop]
  dsimp only [bind, Except.bind, pure, Except.pure]
  -- there is one loop to add
  rw [List.foldlM_cons]
  refine ⟨_, bind_eq_ok.mpr ⟨_, bind_eq_ok.mpr ⟨unique, hmerged, rfl⟩, rfl⟩, ?_, rfl⟩
  exact Std.TreeMap.getElem?_insert_self

end WeakForm
