import WeakForm.Proofs.Annotation
import WeakForm.Proofs.Homogeneity

/-!
# Leaves are analysed

An insertion asks of a leaf only that it looks like a terminal under modifiers. Its analysis asks
more: a leaf must not be restricted or averaged twice, and its gradients must be of one kind.
Scalarization analyses every chain that it returns, and the arithmetic on factors makes no leaves
but constants. So all leaves of a graph that is built can be analysed, and so can those of the
graph of its factors. A factorization then fails for no other reason than the degrees of the
nodes and the targets.

* `LeavesAnalyse`, `leavesAnalyse_of_holds` — graphs whose leaves can be analysed;
* `factorize_holds_insertable` — what the graph of factors holds can be inserted;
* `ofTargets_leavesAnalyse` — graphs that are built, and those of their factors.
-/

namespace WeakForm

namespace ScalarGraph

open WeakForm.Expr

variable {R : Type} [DecidableEq R] {g : ScalarGraph R}

/-- Every leaf can be analysed as a terminal under modifiers. -/
def LeavesAnalyse (g : ScalarGraph R) : Prop :=
  ∀ (i : NodeId) (n : Node R), g.nodes[i]? = some n → n.isLeaf →
    ∃ m, n.expr.analyse = .ok (some m)

/-- What can be inserted into a graph can be analysed where it is a leaf. -/
theorem leavesAnalyse_of_holds (hg : g.WellFormed) (hi : g.Holds Insertable) :
    g.LeavesAnalyse := by
  intro i n hn hleaf
  have hinsertable := hi i n.expr (expr_eq_ok.mpr ⟨n, hn, rfl⟩)
  exact exists_descriptor hinsertable ((hg.nodes i n hn).operandsOf_leaf hleaf)

variable [Scalar R]

omit [DecidableEq R] in
/-- Arithmetic on factors keeps them insertable. -/
theorem keeps_insertable : Factors.Keeps (R := R) (fun _ => True) Insertable Insertable where
  none := trivial
  product _ _ := trivial
  apply := Insertable.apply₂
  factor := id
  operands _ he _ ha := insertable_part (.operand ha .refl) he

/-- **The graph of factors holds what can be inserted into a graph.** -/
theorem factorize_holds_insertable (hg : g.WellFormed) (hi : g.Holds Insertable) {rank : Nat}
    {F : Factorization R} (hF : g.factorize rank = .ok F) :
    F.graph.WellFormed ∧ F.graph.Holds Insertable := by
  refine factorize_holds keeps_insertable ?_ hg hi hF
  exact insertable_of_isConstantValue (isConstantValue_literal _)
    (isScalar_iff.mpr (attributes_literal _))

/-- **Leaves of graphs that are built can be analysed.** A factorization of such a graph fails
only for the degrees of its nodes and targets. Where it does not fail, the leaves of the graph of
factors can be analysed as well, and noting their descriptors does not fail. -/
theorem ofTargets_leavesAnalyse {es : List (Expr R)} (hb : ∀ e ∈ es, Built e)
    (h : ofTargets es = .ok g) :
    g.LeavesAnalyse ∧ ∀ rank : Nat,
      (∀ err, g.factorize rank = .error err → err.OfDegrees) ∧
        ∀ F, g.factorize rank = .ok F →
          F.graph.LeavesAnalyse ∧ ∃ g', F.graph.describeLeaves = .ok g' := by
  have hg := ofTargets_wellFormed h
  have hi := ofTargets_holds_insertable hb h
  refine ⟨leavesAnalyse_of_holds hg hi, fun rank => ⟨fun err herr => ?_, fun F hF => ?_⟩⟩
  -- factorization fails for the reasons of degrees only
  · rcases factorize_outcome hg (ofTargets_canonical hb h) hi rank with ⟨-, F, hF⟩ | ⟨-, err', h'⟩
    · rw [hF] at herr
      cases herr
    · rw [herr] at h'
      obtain ⟨heq, hdegrees⟩ := h'
      cases heq
      exact hdegrees
  -- and the factor graph inherits what makes leaves analyse
  · obtain ⟨hwell, hholds⟩ := factorize_holds_insertable hg hi hF
    exact ⟨leavesAnalyse_of_holds hwell hholds, exists_describeLeaves hwell hholds⟩

end ScalarGraph

open ScalarGraph

/-- The volume and the test function are analysed, and so are the leaves of the graph of
factors, which is found for the rank that the form has. -/
theorem ScalarGraph.ofTargets_leavesAnalyse_scaledTest :
    (∀ e ∈ [ScaledTest.form], Expr.Built e) ∧ ofTargets [ScaledTest.form] = .ok ScaledTest.graph ∧
      ScaledTest.graph.LeavesAnalyse ∧
        ScaledTest.graph.factorize 1 = .ok ScaledTest.factorization ∧
          ScaledTest.factorization.graph.LeavesAnalyse ∧
            ∃ g', ScaledTest.factorization.graph.describeLeaves = .ok g' := by
  have hb : ∀ e ∈ [ScaledTest.form], Expr.Built e := fun e he =>
    List.mem_singleton.mp he ▸ ScaledTest.built_form
  obtain ⟨hleaves, hfactorize⟩ := ofTargets_leavesAnalyse hb ScaledTest.ofTargets_form
  obtain ⟨hfactors, hdescribed⟩ := (hfactorize 1).2 _ ScaledTest.factorize_graph
  exact ⟨hb, ScaledTest.ofTargets_form, hleaves, ScaledTest.factorize_graph, hfactors, hdescribed⟩

end WeakForm
