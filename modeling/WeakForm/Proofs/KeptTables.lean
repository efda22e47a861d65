import WeakForm.Proofs.Blocks
import WeakForm.Proofs.Homogeneity
import WeakForm.Proofs.Typing
import WeakForm.Proofs.ZeroElimination

/-!
# Tables that a plan keeps

Generated code declares the tables that a plan keeps, and addresses them by what the references
of blocks and of active nodes tell. The two are computed from different graphs: references come
from the graph of the integrand, and the tables that are read from the graph of factors, which is
built after terminals with zero tables were eliminated. Still, every table that is read is kept
and fits, and nothing else is kept.

That no axis of a block reads a zero table rests on the factorization. The elimination leaves such
a terminal beneath a divisor only, and what is factorized has no argument there.

* `eliminateZeros_argument` — no argument of what is left after the elimination vanishes;
* `LoopStages.Lead.exists_terminal`, `LoopStages.Lead.terminal_eq_some` — the descriptors of leaves;
* `LoopStages.Lead.table_of_node`, `LoopStages.Lead.node_of_argument` — the tables that nodes read;
* `TableReference.Kept`, `LoopStages.Lead.kept` — what one loop keeps;
* `tables_kept` — the main result.
-/

namespace WeakForm

open ScalarGraph

variable {R : Type} [DecidableEq R] [Scalar R]

/-! ## Arguments that vanish -/

namespace ScalarGraph

open WeakForm.Expr

variable {g g' : ScalarGraph R} {tables : OptimizedTables R} {rank : Nat}

/-- **No argument vanishes** of what is factorized after the elimination. -/
theorem eliminateZeros_argument (hg : g.WellFormed) (hd : g.Described) (hc : g.Holds Canonical)
    (hi : g.Holds Insertable) (h : g.eliminateZeros tables = .ok g') {F : Factorization R}
    (hF : g'.factorize rank = .ok F) {m : ModifiedTerminal R} (hm : m ∈ F.arguments)
    {t : TableReference} (ht : tables.references[m.toDescriptor]? = some t) : t.type ≠ .zeros := by
  intro hzeros
  -- what is left are the rebuilt expressions and their parts
  obtain ⟨es, hes, hrebuilt⟩ := eliminateZeros_rebuilt hg hd hc hi h
  obtain ⟨g'', hg'', htargets, hparts⟩ := ofTargets_insertable
    (fun e he => (hrebuilt e he).canonical) fun e he => (hrebuilt e he).insertable
  obtain rfl : g'' = g' := Except.ok.inj (hg''.symm.trans hes)
  have hformed := ofTargets_wellFormed hg''
  have hcanonical := ofTargets_canonical (fun e he => (hrebuilt e he).canonical.built) hg''
  have hinsertable : g''.Holds Insertable := fun i a ha => by
    obtain ⟨e, he, hpart⟩ := hparts i a ha
    exact insertable_part hpart (hrebuilt e he).insertable
  obtain ⟨harg, i, n, hn, -, hdescribes⟩ := isLeaf_of_mem_arguments hformed hF hm
  -- the argument reads a table of zeros, so its expression vanishes
  have hvanishes : tables.vanishes n.expr := by
    rw [OptimizedTables.vanishes, hdescribes]
    dsimp only
    rw [ht]
    exact decide_eq_true hzeros
  obtain ⟨e, he, hpart⟩ := hparts i n.expr (expr_eq_ok.mpr ⟨n, hn, rfl⟩)
  -- what vanishes was cleared, so it remains in constants and under divisors only
  rcases (hrebuilt e he).cleared.vanishing_part hpart hdescribes.operandsOf_eq_nil hvanishes with
    hconst | ⟨a, b, hdivision, hx⟩
  · -- a constant is no argument
    rw [argumentFree_constant hconst _ m .refl hdescribes] at harg
    cases harg
  · -- and a divisor has no arguments
    obtain ⟨j, -, hj⟩ := exists_left_of_mem htargets he
    obtain ⟨k, hk⟩ := hformed.exists_part hdivision hj
    have hhom := homogeneous_of_factorize hformed hcanonical hinsertable hF
    exact hhom.divisor_argumentFree hk hx (hdescribes.isArgument.trans harg)

end ScalarGraph

/-! ## Tables that one loop reads -/

/-- What is kept of a table that is read: its type, and unless all values are one the table, with
the lengths that the reference tells. -/
structure TableReference.Kept (t : TableReference) (types : Std.TreeMap String TableType)
    (unique : Std.TreeMap String (Table R)) : Prop where
  type : types[t.name]? = some t.type
  table : t.type ≠ .ones → ∃ table, unique[t.name]? = some table ∧ t.Fits table

omit [Scalar R] in
/-- Of the tables with values of their own, those are kept that are read. -/
theorem getElem?_keptTables {tables : OptimizedTables R} {g : ScalarGraph R}
    {arguments : List TableReference} {name : String} {table : Table R} :
    (LoopPlan.keptTables tables g arguments)[name]? = some table ↔
      tables.unique[name]? = some table ∧
        (∃ t ∈ g.activeNodes.filterMap (·.table) ++ arguments, t.name = name) ∧
          tables.types[name]? ≠ some .zeros ∧ tables.types[name]? ≠ some .ones := by
  rw [LoopPlan.keptTables, Std.TreeMap.getElem?_filter', Option.filter_eq_some_iff,
    Bool.and_eq_true, List.any_eq_true]
  simp only [decide_eq_true_eq]
  refine and_congr_right fun _ => and_congr_right fun _ => ?_
  split
  · next hzeros => simp [hzeros]
  · next hones => simp [hones]
  · next hzeros hones => exact iff_of_true rfl ⟨hzeros, hones⟩

/-- The loop reads the table of a name: an active leaf does, or one that is an argument. -/
def LoopPlan.Reads (loop : LoopPlan R) (name : String) : Prop :=
  ∃ (i : NodeId) (n : Node R) (t : TableReference),
    loop.factorization.graph.nodes[i]? = some n ∧ n.isLeaf ∧ n.table = some t ∧ t.name = name ∧
      (n.status ≠ .inactive ∨ i < loop.factorization.arguments.length)

namespace LoopStages.Lead

variable {s : LoopStages R} {problem : IntegralProblem R} {elements : ElementNumbering}
  {parameters : Parameters R} {overflow : Overflow} {points : Nat} {integrand : Expr R}
  {loop : LoopPlan R} {context : LoopContext R} {t : TableReference}

/-- A node of a loop is one of the graph of factors, with its table and its status noted. -/
theorem factor_of_node
    (h : s.Lead problem elements parameters overflow points integrand loop context)
    {i : NodeId} {n : Node R} (hn : loop.factorization.graph.nodes[i]? = some n) :
    ∃ n', s.factors.nodes[i]? = some n' ∧
      n = { assignTable s.tables n' with status := n.status } := by
  obtain ⟨n₁, hn₁, hsame, -⟩ := h.partitions.nodes i n hn
  rw [assignTables, Array.getElem?_map] at hn₁
  obtain ⟨n', hn', rfl⟩ := Option.map_eq_some_iff.mp hn₁
  exact ⟨n', hn', hsame⟩

/-- **The leaves of a loop have their descriptors noted.** -/
theorem exists_terminal
    (h : s.Lead problem elements parameters overflow points integrand loop context)
    {i : NodeId} {n : Node R} (hn : loop.factorization.graph.nodes[i]? = some n)
    (hleaf : n.isLeaf) : ∃ m, n.terminal = some m ∧ Describes m n.expr := by
  obtain ⟨n', hn', hsame⟩ := h.factor_of_node hn
  obtain ⟨hexpr, hoperands⟩ := assignTable_same s.tables n'
  rw [hsame] at hleaf ⊢
  have hleaf' : n'.isLeaf := by
    rw [Node.isLeaf, hoperands] at hleaf
    exact hleaf
  obtain ⟨m, hm, hdescribes⟩ := describeLeaves_leaf h.factors hn' hleaf'
  exact ⟨m, (assignTable_terminal s.tables n').trans hm, hexpr ▸ hdescribes⟩

/-- What is noted about a node is the descriptor of a leaf. -/
theorem terminal_eq_some
    (h : s.Lead problem elements parameters overflow points integrand loop context)
    {i : NodeId} {n : Node R} (hn : loop.factorization.graph.nodes[i]? = some n)
    {m : ModifiedTerminal R} : n.terminal = some m ↔ n.isLeaf ∧ Describes m n.expr := by
  constructor
  · intro hm
    have hformed := h.formed.wellFormed
    have hdescribes : Describes m n.expr := (hformed.nodes i n hn).noted m hm
    obtain ⟨n', hn', hleaf, -⟩ := isLeaf_of_describes hformed hn hdescribes
    obtain rfl := Option.some.inj (hn.symm.trans hn')
    exact ⟨hleaf, hdescribes⟩
  · rintro ⟨hleaf, hdescribes⟩
    obtain ⟨m', hm', hdescribes'⟩ := h.exists_terminal hn hleaf
    -- the analysis of an expression gives one descriptor
    rw [Describes, hdescribes'] at hdescribes
    exact hm'.trans (Except.ok.inj hdescribes)

/-- The table of a node is that of its descriptor. -/
theorem table_of_node
    (h : s.Lead problem elements parameters overflow points integrand loop context)
    {i : NodeId} {n : Node R} (hn : loop.factorization.graph.nodes[i]? = some n)
    (ht : n.table = some t) :
    ∃ m, n.terminal = some m ∧ s.tables.references[m.toDescriptor]? = some t := by
  obtain ⟨-, hswept⟩ := factorize_swept h.reduced_wellFormed h.factorized
  -- the table of a node is the one its descriptor refers to
  obtain ⟨n', hn', hsame⟩ := h.factor_of_node hn
  rw [hsame] at ht ⊢
  rcases tableOf_of_assignTable ht with hreference | hbefore
  · obtain ⟨m, hm, href⟩ := Option.bind_eq_some_iff.mp hreference
    exact ⟨m, (assignTable_terminal s.tables n').trans hm, href⟩
  · -- no table was noted before
    obtain ⟨n₀, hn₀, hdescribed⟩ := describeLeaves_node h.factors hn'
    rw [describeLeaf_table hdescribed,
      hswept.carries.unread n₀ (Array.mem_of_getElem? hn₀)] at hbefore
    cases hbefore

/-- The node of an argument has the table of its descriptor noted. -/
theorem node_of_argument
    (h : s.Lead problem elements parameters overflow points integrand loop context)
    {p : Nat} {m : ModifiedTerminal R} (hm : loop.factorization.arguments[p]? = some m)
    (ht : s.tables.references[m.toDescriptor]? = some t) :
    ∃ n, loop.factorization.graph.nodes[p]? = some n ∧ n.table = some t := by
  obtain ⟨harguments, -⟩ := factorize_swept h.reduced_wellFormed h.factorized
  have hformed := h.formed
  obtain ⟨n, hn, hexpr⟩ := expr_eq_ok.mp (hformed.argument p m hm)
  -- the argument vector and the node agree on the descriptor
  rw [h.vector] at hm
  have hdescribes : Describes m n.expr :=
    hexpr ▸ harguments.describes m (List.mem_of_getElem? hm)
  -- the node is a leaf, and its descriptor is noted
  obtain ⟨n', hn', hleaf, -⟩ := isLeaf_of_describes hformed.wellFormed hn hdescribes
  obtain rfl := Option.some.inj (hn.symm.trans hn')
  -- the node notes the same descriptor, and so reads the same table
  have hterminal := (h.terminal_eq_some hn).mpr ⟨hleaf, hdescribes⟩
  obtain ⟨n', -, hsame⟩ := h.factor_of_node hn
  rw [hsame] at hterminal
  have htable : tableOf s.tables n' = some t := by
    rw [tableOf, ← assignTable_terminal s.tables n', hterminal]
    exact ht
  refine ⟨n, hn, ?_⟩
  rw [hsame, assignTable, htable]

/-- **No argument of a loop has a zero table.** -/
theorem argument_ne_zeros
    (h : s.Lead problem elements parameters overflow points integrand loop context)
    (hb : Expr.Built integrand) {m : ModifiedTerminal R} (hm : m ∈ loop.factorization.arguments)
    (ht : s.tables.references[m.toDescriptor]? = some t) : t.type ≠ .zeros := by
  rcases h.reduced with ⟨-, hnone⟩ | heliminated
  · -- there is no zero table at all
    obtain ⟨hkey, rfl⟩ := Std.HashMap.getElem?_eq_some_iff.mp ht
    have hother := Std.HashMap.any_eq_false_iff_forall_mem_getElem.mp hnone _ hkey
    exact of_decide_eq_false hother
  -- zeros were eliminated from the graph before the factorization
  · have hone : Expr.Canonical (Expr.real (Scalar.one : R)) := Expr.canonical_literal _
    have hcanonical : ∀ e ∈ [s.integrand], Expr.Built e := fun e he => by
      rw [List.mem_singleton.mp he]
      exact (Expr.canonical_closed.normalize hone hb.canonical h.normalized).built
    have hscalar := ofTargets_wellFormed h.scalarized
    have hholds : s.described.Holds Expr.Canonical := fun i e he =>
      ofTargets_canonical hcanonical h.scalarized i e
        ((describeLeaves_reannotates h.described).expr.mp he)
    exact eliminateZeros_argument (describeLeaves_wellFormed hscalar h.described)
      -- its leaves are those of the described graph
      (fun i n hn hleaf => describeLeaves_leaf h.described hn hleaf) hholds
      (describeLeaves_insertable hscalar h.described) heliminated h.factorized (h.vector ▸ hm) ht

/-- **What is read is kept**, unless it is zero. -/
theorem kept (h : s.Lead problem elements parameters overflow points integrand loop context)
    {key : Descriptor R} (ht : s.tables.references[key]? = some t)
    (hread : t ∈ loop.factorization.graph.activeNodes.filterMap (·.table) ++ s.arguments)
    (hne : t.type ≠ .zeros) : t.Kept context.types context.unique := by
  obtain ⟨htype, table, htable, hfits⟩ := OptimizedTables.build_fits h.tables ht
  refine ⟨?_, fun hones => ⟨table, ?_, hfits hne⟩⟩
  · rwa [h.types]
  · rw [h.unique, getElem?_keptTables, htype]
    exact ⟨htable, ⟨t, hread, rfl⟩, by simpa using hne, by simpa using hones⟩

/-- The axes of blocks read tables that are kept and are not zero. -/
theorem axis_kept (h : s.Lead problem elements parameters overflow points integrand loop context)
    (hb : Expr.Built integrand) {b : Block} (hmem : b ∈ s.blocks) {axis : BlockArgument}
    (haxis : axis ∈ b.arguments) :
    axis.table.type ≠ .zeros ∧ axis.table.Kept context.types context.unique := by
  obtain ⟨term, -, hstands⟩ := exists_left_of_mem h.stands hmem
  obtain ⟨p, -, -, m, hm, ht⟩ := exists_left_of_mem hstands.axes haxis
  have hne := h.argument_ne_zeros hb (List.mem_of_getElem? hm) ht
  refine ⟨hne, h.kept ht (List.mem_append_right _ ?_) hne⟩
  -- the table of an argument is one of those of all arguments
  obtain ⟨t, hget, hreference⟩ :=
    exists_right_of_getElem? (argumentTables_spec (h.vector ▸ h.arguments)) hm
  obtain rfl : t = axis.table := Option.some.inj (hreference.symm.trans ht)
  exact List.mem_of_getElem? hget

/-- Active nodes read tables that are kept, if they are not zero. -/
theorem active_kept (h : s.Lead problem elements parameters overflow points integrand loop context)
    {n : Node R} (hn : n ∈ loop.factorization.graph.activeNodes) (ht : n.table = some t)
    (hne : t.type ≠ .zeros) : t.Kept context.types context.unique := by
  obtain ⟨i, hi⟩ := Array.mem_iff_getElem?.mp (Array.mem_toList_iff.mp (List.mem_of_mem_filter hn))
  obtain ⟨m, -, hreference⟩ := h.table_of_node hi ht
  exact h.kept hreference (List.mem_append_left _ (List.mem_filterMap.mpr ⟨n, hn, ht⟩)) hne

/-- **Only what is read is kept**, and neither zeros nor ones. -/
theorem kept_read (h : s.Lead problem elements parameters overflow points integrand loop context)
    {name : String} {table : Table R} (hname : context.unique[name]? = some table) :
    (∃ type, context.types[name]? = some type ∧ type ≠ .zeros ∧ type ≠ .ones) ∧
      loop.Reads name := by
  rw [h.unique] at hname
  obtain ⟨-, ⟨t, hread, rfl⟩, hzeros, hones⟩ := getElem?_keptTables.mp hname
  -- the table is read by an active node or by an argument
  obtain ⟨⟨key, ht⟩, i, n, hn, htable, hwhere⟩ :
      (∃ key : Descriptor R, s.tables.references[key]? = some t) ∧
      ∃ i n, loop.factorization.graph.nodes[i]? = some n ∧ n.table = some t ∧
        (n.status ≠ .inactive ∨ i < loop.factorization.arguments.length) := by
    rcases List.mem_append.mp hread with hread | hread
    · obtain ⟨n, hactive, htable⟩ := List.mem_filterMap.mp hread
      obtain ⟨hmem, hstatus⟩ := List.mem_filter.mp hactive
      obtain ⟨i, hi⟩ := Array.mem_iff_getElem?.mp (Array.mem_toList_iff.mp hmem)
      obtain ⟨m, -, ht⟩ := h.table_of_node hi htable
      exact ⟨⟨_, ht⟩, i, n, hi, htable, .inl (of_decide_eq_true hstatus)⟩
    · -- the table of an argument is read by the node of its position
      obtain ⟨p, hp⟩ := List.mem_iff_getElem?.mp hread
      obtain ⟨m, hm, ht⟩ :=
        exists_right_of_getElem? (argumentTables_spec (h.vector ▸ h.arguments)).flip hp
      obtain ⟨n, hn, htable⟩ := h.node_of_argument hm ht
      exact ⟨⟨_, ht⟩, p, n, hn, htable, .inr (List.getElem?_eq_some_iff.mp hm).1⟩
  -- its class is the one it was classified with, and this was neither zero nor one
  obtain ⟨htype, -⟩ := OptimizedTables.build_fits h.tables ht
  rw [htype] at hzeros hones
  refine ⟨⟨t.type, h.types ▸ htype, by simpa using hzeros, by simpa using hones⟩, ?_⟩
  obtain ⟨m, hm, -⟩ := h.table_of_node hn htable
  exact ⟨i, n, t, hn, ((h.terminal_eq_some hn).mp hm).1, htable, rfl, hwhere⟩

end LoopStages.Lead

/-! ## Tables that a plan reads -/

variable {problem : IntegralProblem R} {parameters : Parameters R} {overflow : Overflow}
  {plan : IntegralPlan R}

/-- The block is one of the plan, outside all loops or inside one of them. -/
def IntegralPlan.HasBlock (plan : IntegralPlan R) (b : Block) : Prop :=
  (∃ dofs, (dofs, b) ∈ plan.hoisted.entries) ∨
    ∃ (points : Nat) (loop : LoopPlan R) (dofs : Block.Dofs),
      plan.loops[points]? = some loop ∧ (dofs, b) ∈ loop.blocks.entries

omit [Scalar R] in
/-- What a loop keeps, the plan keeps. -/
theorem TableReference.Kept.inPlan {made : List (Nat × LoopPlan R × LoopContext R)}
    (hplan : plan.MadeOf made) {loop : Nat × LoopPlan R × LoopContext R} (hloop : loop ∈ made)
    {t : TableReference} (h : t.Kept loop.2.2.types loop.2.2.unique) :
    t.Kept plan.types plan.unique := by
  refine ⟨(hplan.types _ _).mpr ⟨loop, hloop, h.type⟩, fun hones => ?_⟩
  obtain ⟨table, htable, hfits⟩ := h.table hones
  exact ⟨table, (hplan.unique _ _).mpr ⟨loop, hloop, htable⟩, hfits⟩

/-- A block of a plan is one of those that a loop was made into. -/
theorem stages_of_block {made : List (Nat × LoopPlan R × LoopContext R)}
    (hplan : plan.MadeOf made)
    (hstages : ∀ loop ∈ made, problem.Staged parameters overflow loop)
    {b : Block} (hb : plan.HasBlock b) :
    ∃ loop ∈ made, ∃ (integrand : Expr R) (s : LoopStages R),
      problem.integrands[loop.1]? = some integrand ∧
        s.Lead problem (.ofExprs problem.integrands.values) parameters overflow loop.1 integrand
          loop.2.1 loop.2.2 ∧ b ∈ s.blocks := by
  rcases hb with ⟨dofs, hmem⟩ | ⟨points, loop, dofs, hloop, hmem⟩
  -- a block that is hoisted, or one inside of its loop
  · obtain ⟨loop, hloop, hmem⟩ := List.mem_flatMap.mp (hplan.hoisted.mem_iff.mp hmem)
    obtain ⟨b', hb', heq⟩ := List.mem_map.mp hmem
    obtain ⟨-, rfl⟩ := Prod.mk.inj heq
    -- hoisted blocks are those of all loops, and each loop is made in stages
    obtain ⟨integrand, s, hgiven, hs⟩ := hstages loop hloop
    rw [hs.hoisted] at hb'
    exact ⟨loop, hloop, integrand, s, hgiven, hs, List.mem_of_mem_filter hb'⟩
  · obtain ⟨context, hmade⟩ := (hplan.loops points loop).mp hloop
    -- the other blocks are filed in their own loop
    obtain ⟨integrand, s, hgiven, hs⟩ := hstages _ hmade
    rw [hs.inside, (Block.entries_fileAll ∅ _).mem_iff] at hmem
    obtain hempty | hmem := List.mem_append.mp hmem
    · cases hempty
    · obtain ⟨b', hb', heq⟩ := List.mem_map.mp hmem
      obtain ⟨-, rfl⟩ := Prod.mk.inj heq
      -- nothing else is filed, since filing starts empty
      exact ⟨_, hmade, integrand, s, hgiven, hs, List.mem_of_mem_filter hb'⟩

/-- **Every table that a plan reads is kept, and nothing else is**, for integrands that come out
of the constructors. No axis of a block reads a table of zeros; the table of each axis has the
type that the axis tells and, unless it is one everywhere, is kept with the lengths that the axis
tells, and so is that of each active node which is not zero. A table that is kept has values of
its own, and is that of an active leaf or of an argument. -/
theorem tables_kept
    (hb : ∀ (points : Nat) (e : Expr R), problem.integrands[points]? = some e → Expr.Built e)
    (h : IntegralPlan.build problem parameters overflow = .ok plan) :
    (∀ b, plan.HasBlock b → ∀ axis ∈ b.arguments,
      axis.table.type ≠ .zeros ∧ axis.table.Kept plan.types plan.unique) ∧
    (∀ (points : Nat) (loop : LoopPlan R), plan.loops[points]? = some loop →
      ∀ n ∈ loop.factorization.graph.activeNodes, ∀ t : TableReference, n.table = some t →
        t.type ≠ .zeros → t.Kept plan.types plan.unique) ∧
    ∀ (name : String) (table : Table R), plan.unique[name]? = some table →
      (∃ type, plan.types[name]? = some type ∧ type ≠ .zeros ∧ type ≠ .ones) ∧
        ∃ (points : Nat) (loop : LoopPlan R), plan.loops[points]? = some loop ∧
          loop.Reads name := by
  obtain ⟨made, hplan, -, hstages⟩ := plan_stages h
  -- Each part descends from the plan to the loop that made the thing, and uses that loop's stages.
  refine ⟨fun b hblock axis haxis => ?_, fun points loop hloop n hn t ht hne => ?_,
    fun name table hname => ?_⟩
  · obtain ⟨loop, hmade, integrand, s, hgiven, hs, hmem⟩ := stages_of_block hplan hstages hblock
    obtain ⟨hne, hkept⟩ := hs.axis_kept (hb _ _ hgiven) hmem haxis
    exact ⟨hne, hkept.inPlan hplan hmade⟩
  · obtain ⟨context, hmade⟩ := (hplan.loops points loop).mp hloop
    obtain ⟨integrand, s, -, hs⟩ := hstages _ hmade
    exact (hs.active_kept hn ht hne).inPlan hplan hmade
  · obtain ⟨⟨points, loop, context⟩, hmade, hname⟩ := (hplan.unique name table).mp hname
    obtain ⟨integrand, s, -, hs⟩ := hstages _ hmade
    obtain ⟨⟨type, htype, hne⟩, hreads⟩ := hs.kept_read hname
    exact ⟨⟨type, (hplan.types _ _).mpr ⟨_, hmade, htype⟩, hne⟩,
      points, loop, (hplan.loops points loop).mpr ⟨context, hmade⟩, hreads⟩

/-- At the vertices of a triangle, the table of the test function is kept, with a single row of
points and a column for each vertex. -/
theorem tables_kept_vertexTest :
    ∃ plan, IntegralPlan.build VertexTest.problem VertexTest.parameters = .ok plan ∧
      plan.types["FE0_V_Q1"]? = some .piecewise ∧
        ∃ table, plan.unique["FE0_V_Q1"]? = some table ∧ table.shape.dofs = 3 ∧
          table.shape.points = 1 ∧ ¬ 1 < table.shape.permutations := by
  -- the plan of the test function weighted by the volume, with its single block
  obtain ⟨plan, hplan, hblock⟩ := VertexTest.build_plan
  have hb : ∀ (points : Nat) (e : Expr ℚ), VertexTest.problem.integrands[points]? = some e →
      Expr.Built e := fun points e he => by
    -- the only integrand of the problem
    rw [VertexTest.problem, Std.TreeMap.getElem?_insert] at he
    split at he
    · obtain rfl := Option.some.inj he
      exact ScaledTest.built_form
    · cases he
  obtain ⟨haxes, -⟩ := tables_kept hb hplan
  -- the axis of the block refers to a kept table
  obtain ⟨-, hkept⟩ := haxes VertexTest.block (.inl ⟨_, hblock⟩) _ (List.mem_singleton.mpr rfl)
  obtain ⟨table, htable, hfits⟩ := hkept.table (by decide)
  refine ⟨plan, hplan, hkept.type, table, htable, hfits.dofs, hfits.points rfl, ?_⟩
  exact hfits.permutations.not.mpr Bool.false_ne_true

end WeakForm
