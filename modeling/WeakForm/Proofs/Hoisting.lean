import WeakForm.Proofs.Blocks

/-!
# Hoisted blocks

A block that is computed once, outside the loop over quadrature points, must not depend on
the point. What its factors depend on is a matter of the graph: given a value for every leaf,
a forward sweep computes the values of all nodes, and two choices of values for the leaves
stand for two quadrature points.

* `ScalarGraph.evaluate` — the values of all nodes, from those of the leaves;
* `evaluate_node`, `evaluate_values` — one node, and that an expression has the value that
  its node is given;
* `Node.ReadsPoint` — the leaves that may have different values at different points;
* `evaluate_congr` — nodes that are piecewise constant do not depend on them;
* `hoisted_safe` — the main result.
-/

namespace WeakForm

open ScalarGraph WeakForm.Expr

section Hoisting

variable {R A : Type} [Scalar R] [CommRing A]

/-! ## The values of a graph -/

/-- The value of a node from those of its operands. -/
def Node.compute (M : Model R A) (n : Node R) (operands : List A) : A :=
  match n.expr, operands with
  | .unary (.math f) _, [x] => M.math f x
  | .unary .abs _, [x] => M.abs x
  | .binary .sum _ _, [x, y] => x + y
  | .binary .product _ _, [x, y] => x * y
  | .binary .division _ _, [x, y] => M.quotient x y
  | .binary .power _ _, [x, y] => M.power x y
  | _, _ => 0

namespace ScalarGraph

variable [DecidableEq R] {M : Model R A} {g g' : ScalarGraph R} {leaves leaves' : NodeId → A}

/-- The value of one more node. -/
def evaluateNode (M : Model R A) (leaves : NodeId → A) (values : Array A) (n : Node R)
    (i : NodeId) : A :=
  if n.isLeaf then leaves i else n.compute M (n.operands.map fun j => values.getD j 0)

/-- The values of all nodes, given those of the leaves. -/
def evaluate (M : Model R A) (g : ScalarGraph R) (leaves : NodeId → A) : Array A :=
  g.nodes.toList.zipIdx.foldl
    (fun values (n, i) => values.push (evaluateNode M leaves values n i)) #[]

/-- The nodes before `k` have their values. -/
structure EvaluatedTo (M : Model R A) (g : ScalarGraph R) (leaves : NodeId → A) (k : Nat)
    (values : Array A) : Prop where
  size : values.size = k
  nodes : ∀ (i : Nat) (n : Node R), i < k → g.nodes[i]? = some n →
    values.getD i 0 = evaluateNode M leaves values n i

omit [Scalar R] [DecidableEq R] in
/-- The value of a node depends on those of its operands. -/
theorem evaluateNode_congr {values values' : Array A} {n : Node R} {i : NodeId}
    (hleaf : n.isLeaf → leaves i = leaves' i)
    (h : ∀ j ∈ n.operands, values.getD j 0 = values'.getD j 0) :
    evaluateNode M leaves values n i = evaluateNode M leaves' values' n i := by
  unfold evaluateNode
  split
  · next hn => exact hleaf hn
  · rw [List.map_congr_left h]

omit [Scalar R] in
/-- The sweep comes to one more node. -/
theorem EvaluatedTo.step (hg : g.WellFormed) {k : Nat} {values : Array A} {n : Node R}
    (h : EvaluatedTo M g leaves k values) (hn : g.nodes[k]? = some n) :
    EvaluatedTo M g leaves (k + 1) (values.push (evaluateNode M leaves values n k)) where
  size := by rw [Array.size_push, h.size]
  nodes i m hi hm := by
    -- operands come before the node, so their values stay
    have hkeeps : ∀ j, j < k →
        (values.push (evaluateNode M leaves values n k)).getD j 0 = values.getD j 0 := by
      intro j hj
      have hj' : j < values.size := h.size ▸ hj
      rw [Array.getD_eq_getD_getElem?, Array.getElem?_push_lt hj', Array.getD_eq_getD_getElem?,
        Array.getElem?_eq_getElem hj']
    have hoperands : ∀ j ∈ m.operands, j < i := by
      intro j hj
      rw [← operandsAt_eq hm] at hj
      exact (lt_of_mem_operandsAt hg hj).1
    -- a node before `k` has its value already, the node `k` gets the pushed one
    rcases Nat.lt_or_ge i k with hik | hik
    · rw [hkeeps i hik, h.nodes i m hik hm]
      refine evaluateNode_congr (fun _ => rfl) fun j hj => (hkeeps j ?_).symm
      exact Nat.lt_trans (hoperands j hj) hik
    · obtain rfl : i = k := by omega
      obtain rfl : n = m := Option.some.inj (hn.symm.trans hm)
      have hlast : (values.push (evaluateNode M leaves values n i)).getD i 0 =
          evaluateNode M leaves values n i := by
        rw [Array.getD_eq_getD_getElem?, ← h.size, Array.getElem?_push_size]
        rfl
      rw [hlast]
      exact evaluateNode_congr (fun _ => rfl) fun j hj => (hkeeps j (hoperands j hj)).symm

omit [Scalar R] in
/-- The sweep from the node `k` to the last. -/
theorem EvaluatedTo.run (hg : g.WellFormed) {k : Nat} {values : Array A} {rest : List (Node R)}
    (h : EvaluatedTo M g leaves k values) (hrest : g.nodes.toList.drop k = rest) :
    EvaluatedTo M g leaves (k + rest.length)
      ((rest.zipIdx k).foldl
        (fun values (n, i) => values.push (evaluateNode M leaves values n i)) values) := by
  induction rest generalizing k values with
  | nil => exact h
  | cons n rest ih =>
    -- the list starts with the node `k`, and what follows starts with the next one
    obtain ⟨hn, hnext⟩ := item_of_drop hrest
    have hall := ih (h.step hg hn) hnext
    rw [List.length_cons, Nat.add_comm rest.length 1, ← Nat.add_assoc]
    exact hall

omit [Scalar R] in
theorem evaluate_evaluated (hg : g.WellFormed) :
    EvaluatedTo M g leaves g.size (g.evaluate M leaves) := by
  have hstart : EvaluatedTo M g leaves 0 #[] :=
    ⟨rfl, fun i n hi => absurd hi (Nat.not_lt_zero i)⟩
  have hall := hstart.run hg rfl
  rw [Nat.zero_add, List.drop_zero, Array.length_toList] at hall
  exact hall

omit [Scalar R] in
/-- **The value of a node** is that of a leaf, or computed from the values of its operands. -/
theorem evaluate_node (hg : g.WellFormed) {i : Nat} {n : Node R} (hn : g.nodes[i]? = some n) :
    (g.evaluate M leaves).getD i 0 = evaluateNode M leaves (g.evaluate M leaves) n i :=
  (evaluate_evaluated hg).nodes i n (Array.getElem?_eq_some_iff.mp hn).1 hn

omit [DecidableEq R] in
/-- From the values of its operands, an operator computes its own. -/
theorem compute_values {n : Node R} {σ : Env} (hn : operandsOf n.expr ≠ []) :
    n.compute M ((operandsOf n.expr).map fun a => a.value M [] σ) = n.expr.value M [] σ := by
  unfold Node.compute
  cases he : n.expr with
  -- a node without operands is excluded by the hypothesis
  | leaf t =>
    rw [he] at hn
    exact absurd rfl hn
  | listTensor items =>
    rw [he] at hn
    exact absurd rfl hn
  | unary op a =>
    rw [he] at hn
    cases op with
    | math f => rfl
    | abs => rfl
    -- these operators keep no operands in the graph
    | restricted | grad | referenceGrad | spatialDerivative | averaged | indexSum | indexed
    | componentTensor | labelled => exact absurd rfl hn
  | binary op a b =>
    cases op with
    | sum => rfl
    | product =>
      rw [value_binary_product, List.take_nil, List.take_nil]
      rfl
    | division => rfl
    | power => rfl

/-- Given the values of the leaves' expressions, every node has the value of its own. -/
theorem evaluate_values {σ : Env} (hg : g.WellFormed)
    (hleaves : ∀ (i : Nat) (n : Node R), g.nodes[i]? = some n → n.isLeaf →
      leaves i = n.expr.value M [] σ) {i : Nat} {n : Node R} (hn : g.nodes[i]? = some n) :
    (g.evaluate M leaves).getD i 0 = n.expr.value M [] σ := by
  induction i using Nat.strong_induction_on generalizing n with
  | _ i ih =>
    rw [evaluate_node hg hn, evaluateNode]
    split
    · next hleaf => exact hleaves i n hn hleaf
    · next hleaf =>
      have hoperands := (hg.nodes i n hn).operands
      -- operands come before the node
      have hvalues : n.operands.map (fun j => (g.evaluate M leaves).getD j 0) =
          (operandsOf n.expr).map fun a => a.value M [] σ := by
        rw [← List.forall₂_eq_eq_eq, List.forall₂_map_left_iff, List.forall₂_map_right_iff]
        refine hoperands.imp fun j a hj => ?_
        obtain ⟨hji, hja⟩ := hj
        obtain ⟨m, hm, rfl⟩ := expr_eq_ok.mp hja
        exact ih j hji hm
      rw [hvalues]
      refine compute_values fun hnone => hleaf ?_
      rw [hnone, List.forall₂_nil_right_iff] at hoperands
      rw [Node.isLeaf, hoperands]
      rfl

end ScalarGraph

/-! ## What does not depend on the point -/

/-- A leaf that may have different values at different points: one with a table that is read
anew at every point, or without a table one over the coordinates or the weight of the point. -/
def Node.ReadsPoint (n : Node R) : Prop :=
  match n.table with
  | some t => t.type = .varying ∨ t.type = .quadrature ∨ t.type = .uniform
  | none => ∃ q : Geometry, n.expr.core = some (.geometry q) ∧
      (q.kind = .cellCoordinate ∨ q.kind = .facetCoordinate ∨ q.kind = .quadratureWeight)

omit [Scalar R] in
/-- A leaf that reads the point is not classified as piecewise constant. -/
theorem not_readsPoint {n : Node R} (h : n.leafStatus = .ok .piecewise) : ¬n.ReadsPoint := by
  intro hreads
  unfold Node.leafStatus at h
  unfold Node.ReadsPoint at hreads
  -- a leaf reads the point through its table, or without one as a quantity that varies
  cases ht : n.table with
  | some t =>
    simp only [ht] at h hreads
    rcases hreads with htype | htype | htype
    all_goals
      rw [htype] at h
      cases h
  | none =>
    simp only [ht] at h hreads
    obtain ⟨q, hcore, hkind⟩ := hreads
    -- with one of these kinds the quantity is read at the points, so the leaf varies
    have hpoint : q.isPointDependent := by
      unfold Geometry.isPointDependent
      rcases hkind with hkind | hkind | hkind
      all_goals
        rw [hkind]
    rw [hcore] at h
    simp only [hpoint, if_true] at h
    cases h

namespace ScalarGraph

variable [DecidableEq R] {M : Model R A} {g g' : ScalarGraph R} {leaves leaves' : NodeId → A}

/-- Two choices of values for the leaves that agree on all leaves that do not read the point,
as the values at two quadrature points do. -/
def AgreeOffPoints (g : ScalarGraph R) (leaves leaves' : NodeId → A) : Prop :=
  ∀ (i : Nat) (n : Node R), g.nodes[i]? = some n → n.isLeaf → ¬n.ReadsPoint →
    leaves i = leaves' i

omit [Scalar R] in
/-- **Nodes that are piecewise constant do not depend on the point.** -/
theorem evaluate_congr (hg : g.WellFormed) (hp : g.Partitions g')
    (hagree : g'.AgreeOffPoints leaves leaves') {i : Nat} {n : Node R}
    (hn : g'.nodes[i]? = some n) (hs : n.status = .piecewise) :
    (g'.evaluate M leaves).getD i 0 = (g'.evaluate M leaves').getD i 0 := by
  have hg' := hp.wellFormed hg
  -- operands stand before the node
  induction i using Nat.strong_induction_on generalizing n with
  | _ i ih =>
    rw [evaluate_node hg' hn, evaluate_node hg' hn]
    rcases hp.piecewise hg hn hs with ⟨hleaf, hstatus⟩ | ⟨hleaf, hoperands⟩
    -- a leaf that does not read the point agrees in both runs
    · have hsame := hagree i n hn hleaf (not_readsPoint hstatus)
      rw [evaluateNode, evaluateNode, if_pos hleaf, if_pos hleaf, hsame]
    -- any other node is piecewise through its operands
    · refine evaluateNode_congr (fun h => absurd h (by rw [hleaf]; exact Bool.false_ne_true)) ?_
      intro j hj
      obtain ⟨m, hm, hstatus⟩ := hoperands j hj
      rw [← operandsAt_eq hn] at hj
      exact ih j (lt_of_mem_operandsAt hg' hj).1 hm hstatus

end ScalarGraph

/-! ## The main result -/

variable [DecidableEq R] {problem : IntegralProblem R} {parameters : Parameters R}
  {overflow : Overflow} {plan : IntegralPlan R}

omit [Scalar R] in
/-- The factors of a block that is said to have piecewise constant factors are such nodes. -/
theorem ofTerms_piecewise {F : Factorization R} {found : List TableReference} {points : Nat}
    {blocks : List Block} (h : Block.ofTerms F found points = .ok blocks) {b : Block}
    (hb : b ∈ blocks) (hpiecewise : b.isFactorPiecewise) {use : NodeId × Nat}
    (huse : use ∈ b.factors) : ∃ n, F.graph.nodes[use.1]? = some n ∧ n.status = .piecewise := by
  obtain ⟨term, -, hterm⟩ := mem_of_mapM h hb
  obtain ⟨axes, -, hterm⟩ := bind_eq_ok.mp hterm
  cases hterm
  have hall := List.all_eq_true.mp hpiecewise use huse
  exact Option.map_eq_some_iff.mp (of_decide_eq_true hall)

/-- **Hoisting blocks out of the loop over quadrature points is safe.** Where a block is
hoisted no weight is expected, no axis has a table that depends on the point, and no factor
takes different values where the leaves have the values of different points. -/
theorem hoisted_safe (h : IntegralPlan.build problem parameters overflow = .ok plan)
    {entry : Block.Dofs × Block} (hentry : entry ∈ plan.hoisted.entries) :
    problem.type.expectsWeight problem.domain = false ∧
    (∀ axis ∈ entry.2.arguments, axis.table.type.isPiecewise) ∧
    ∃ loop, plan.loops[entry.2.points]? = some loop ∧
      ∀ {A : Type} [CommRing A] (M : Model R A) (leaves leaves' : NodeId → A),
        loop.factorization.graph.AgreeOffPoints leaves leaves' →
        ∀ use ∈ entry.2.factors, use.1 < loop.factorization.graph.size ∧
          (loop.factorization.graph.evaluate M leaves).getD use.1 0 =
            (loop.factorization.graph.evaluate M leaves').getD use.1 0 := by
  obtain ⟨loop, hloop⟩ := loop_of_hoisted h hentry
  obtain ⟨integrand, s, context, -, hs, hhoisted⟩ := loop_of_plan h hloop
  -- the block is one of those that the loop's stages hoist
  obtain ⟨b, hb, rfl⟩ : ∃ b ∈ context.hoisted, (b.dofs, b) = entry := by
    refine List.mem_map.mp (hhoisted.mem_iff.mp ?_)
    exact List.mem_filter.mpr ⟨hentry, decide_eq_true rfl⟩
  rw [hs.hoisted, List.mem_filter] at hb
  obtain ⟨hb, hcond⟩ := hb
  simp only [Block.isHoisted, Bool.and_eq_true, Bool.not_eq_true', List.all_eq_true] at hcond
  obtain ⟨⟨hpiecewise, hweight⟩, haxes⟩ := hcond
  refine ⟨hweight, fun axis haxis => ?_, loop, hloop, ?_⟩
  -- an axis of the block refers to a kept table, whose type is the one classified
  · obtain ⟨term, -, hstands⟩ := exists_left_of_mem hs.stands hb
    obtain ⟨position, -, -, m, -, hreference⟩ := exists_left_of_mem hstands.axes haxis
    rw [← OptimizedTables.isPiecewise_of_reference hs.tables hreference]
    exact haxes axis haxis
  -- every factor of a piecewise block stands for a piecewise node
  · intro A _ M leaves leaves' hagree use huse
    obtain ⟨n, hn, hstatus⟩ := ofTerms_piecewise hs.blocks hb hpiecewise huse
    exact ⟨(Array.getElem?_eq_some_iff.mp hn).1,
      evaluate_congr hs.assigned_wellFormed hs.partitions hagree hn hstatus⟩

end Hoisting

/-- At the vertices of a triangle the block of the test function is hoisted, and its factor, made
of the volume, has one value whatever the values at the points are. -/
theorem hoisted_safe_vertexTest :
    ∃ plan, IntegralPlan.build VertexTest.problem VertexTest.parameters = .ok plan ∧
      (VertexTest.block.dofs, VertexTest.block) ∈ plan.hoisted.entries ∧
      VertexTest.problem.type.expectsWeight VertexTest.problem.domain = false ∧
      ∃ loop, plan.loops[1]? = some loop ∧
        ∀ leaves leaves' : NodeId → ℚ,
          loop.factorization.graph.AgreeOffPoints leaves leaves' →
          (loop.factorization.graph.evaluate ScaledTest.model leaves).getD 4 0 =
            (loop.factorization.graph.evaluate ScaledTest.model leaves').getD 4 0 := by
  obtain ⟨plan, hplan, hentry⟩ := VertexTest.build_plan
  obtain ⟨hweight, -, loop, hloop, hsame⟩ := hoisted_safe hplan hentry
  refine ⟨plan, hplan, hentry, hweight, loop, hloop, fun leaves leaves' hagree => ?_⟩
  exact (hsame _ leaves leaves' hagree (4, 0) (List.mem_singleton.mpr rfl)).2

end WeakForm
