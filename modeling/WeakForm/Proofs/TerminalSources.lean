import WeakForm.Proofs.Plans
import WeakForm.Proofs.Typing
import WeakForm.Proofs.WellFactored

/-!
# Where terminals come from

Every pass takes expressions apart and puts constructors on top of the parts, and the only
terminals that constructors make are constants. So no pass invents an argument, a coefficient or
a geometric quantity: what stands at the core of a leaf of any graph that the passes make of an
expression, in whatever order they are applied, occurs in that expression.

* `Expr.DrawnFrom`, `drawnFrom_closed` — expressions whose quantities are drawn from a set;
* `Holds.rebuilt`, `Holds.eliminateZeros`, `Holds.factorize` — the passes on graphs keep every
  closed property;
* `Expr.Yields`, `Yields.holds` — the graphs that passes make of an expression;
* `Yields.core_occurs`, `Yields.terminal_occurs` — the terminals of their leaves.
-/

namespace WeakForm

variable {R : Type}

/-- Arguments, coefficients and geometric quantities. Literals and zeros are none. -/
def Terminal.isQuantity : Terminal R → Bool
  | argument _ | coefficient _ | geometry _ => true
  | literal _ | zero _ _ => false

namespace Expr

variable {S : Terminal R → Prop} {a e : Expr R} {t : Terminal R}

/-! ## Expressions over given quantities -/

/-- Every quantity that occurs in the expression is one of `S`. -/
def DrawnFrom (S : Terminal R → Prop) (e : Expr R) : Prop :=
  ∀ t, Subexpression (leaf t) e → t.isQuantity → S t

/-- An expression is drawn from the terminals that occur in it. -/
theorem drawnFrom_self (e : Expr R) : DrawnFrom (fun t => Subexpression (leaf t) e) e :=
  fun _ h _ => h

theorem DrawnFrom.operand (he : DrawnFrom S e) (ha : a ∈ e.operands) : DrawnFrom S a :=
  fun t ht hq => he t (.operand ha ht) hq

/-- What occurs in an expression that is no quantity occurs in an operand. -/
theorem drawnFrom_of_operands (hleaf : ∀ t, e = leaf t → t.isQuantity → S t)
    (h : ∀ a ∈ e.operands, DrawnFrom S a) : DrawnFrom S e := by
  intro t ht hq
  cases ht with
  | refl => exact hleaf t rfl hq
  | operand hb ht => exact h _ hb t ht hq

theorem drawnFrom_constant (h : e.isConstantValue) : DrawnFrom S e := by
  obtain ⟨t, rfl⟩ := leaf_of_isConstantValue h
  refine drawnFrom_of_operands ?_ ?_
  · rintro t' ⟨⟩ hq
    cases t with
    | argument | coefficient | geometry => cases h
    | literal | zero => cases hq
  · rintro a ⟨⟩

/-- **Constructors make no quantities.** -/
theorem drawnFrom_closed [Scalar R] : Closed (DrawnFrom S) := by
  refine closed_of_nodes DrawnFrom.operand drawnFrom_constant fun hnode h => ?_
  refine drawnFrom_of_operands (fun t ht => ?_) h
  exact absurd (ht ▸ rfl) hnode

/-- The first terminal of an expression occurs in it. -/
theorem subexpression_core (h : e.core = some t) : Subexpression (leaf t) e := by
  induction e using core.induct with
  | case1 t' =>
    cases h
    exact .refl
  | case2 op a ih => exact .operand List.mem_cons_self (ih h)
  | case3 op a b ih => exact .operand List.mem_cons_self (ih h)
  | case4 => cases h
  | case5 a items ih => exact .operand List.mem_cons_self (ih h)

end Expr

/-! ## The passes on graphs -/

namespace ScalarGraph

open WeakForm.Expr

variable [DecidableEq R] {g g' : ScalarGraph R} {Q : Expr R → Prop}

omit [DecidableEq R] in
/-- A divisor that is kept is an operand. -/
theorem mem_keepDivisor [Scalar R] {e a : Expr R} {operands : List (Expr R)}
    (h : a ∈ keepDivisor e operands) : a ∈ operands ∨ a ∈ e.operands := by
  unfold keepDivisor at h
  split at h
  · next dividend divisor x y =>
    rcases List.mem_pair.mp h with rfl | rfl
    · exact .inl List.mem_cons_self
    · split
      · exact .inr (List.mem_cons_of_mem _ List.mem_cons_self)
      · exact .inl (List.mem_cons_of_mem _ List.mem_cons_self)
  · exact .inl h

variable [Scalar R] {tables : OptimizedTables R}

/-- The expressions that nodes are rebuilt to. -/
theorem Holds.rebuilt (hQ : Closed Q) (hg : g.Holds Q) {es : Array (Expr R)}
    (h : g.rebuilt tables = .ok es) : ∀ e ∈ es, Q e := by
  rw [ScalarGraph.rebuilt, ← Array.foldlM_toList] at h
  -- along the nodes: operands are read from what has been rebuilt so far
  refine foldlM_ok_induct (P := fun _ es => ∀ e ∈ es, Q e) (by simp) ?_ h
  intro done n before after hprefix hbefore hstep
  obtain ⟨r, hr, hstep⟩ := bind_eq_ok.mp hstep
  cases hstep
  -- the node holds an expression of the class
  have hn : Q n.expr := by
    have hmem : n ∈ g.nodes.toList := hprefix.subset (List.mem_append_right _ (.head _))
    obtain ⟨i, hi⟩ := Array.mem_iff_getElem?.mp (Array.mem_toList_iff.mp hmem)
    exact hg i n.expr (expr_eq_ok.mpr ⟨n, hi, rfl⟩)
  intro e he
  rcases Array.mem_push.mp he with he | rfl
  · exact hbefore e he
  unfold rebuildNode at hr
  split at hr
  · -- a leaf stays, or becomes zero
    cases hr
    split
    · exact hQ.zero (if_pos FreeIndices.sorted_nil)
    · exact hn
  · -- what is above it is built again
    obtain ⟨operands, hoperands, hr⟩ := bind_eq_ok.mp hr
    refine hQ.rebuild hn (fun a ha => ?_) hr
    rcases mem_keepDivisor ha with ha | ha
    · obtain ⟨i, -, hi⟩ := mem_of_mapM hoperands ha
      split at hi
      · next x hx =>
        cases hi
        exact hbefore _ (Array.mem_of_getElem? hx)
      · cases hi
    · exact hQ.operand hn ha

/-- The graph after the elimination is well formed and holds expressions of the class. -/
theorem Holds.eliminateZeros (hQ : Closed Q) (hg : g.Holds Q)
    (h : g.eliminateZeros tables = .ok g') : g'.WellFormed ∧ g'.Holds Q := by
  obtain ⟨es, hes, h⟩ := bind_eq_ok.mp h
  obtain ⟨targets, htargets, h⟩ := bind_eq_ok.mp h
  refine ⟨ofTargets_wellFormed h, ofTargets_closed hQ (fun e he => ?_) h⟩
  obtain ⟨i, -, hi⟩ := mem_of_mapM htargets he
  split at hi
  · next x hx =>
    cases hi
    exact hg.rebuilt hQ (lift_eq_ok.mp hes) _ (Array.mem_of_getElem? hx)
  · cases hi

omit [DecidableEq R] in
/-- Arithmetic on factors keeps every closed property. -/
theorem keeps_closed (hQ : Closed Q) : Factors.Keeps (fun _ => True) Q Q where
  none := trivial
  product _ _ := trivial
  apply := hQ.binary
  factor := id
  operands _ he _ ha := hQ.operand he (mem_operands ha)

end ScalarGraph

/-! ## The graphs of an expression -/

open ScalarGraph

section Graphs

variable [DecidableEq R] [Scalar R] {e : Expr R} {g g' : ScalarGraph R}

/-- The graphs that the passes make of an expression, in whatever order they are applied. -/
inductive Expr.Yields (e : Expr R) : ScalarGraph R → Prop
  | scalarized {n : Expr R} {g : ScalarGraph R} (hn : (e.normalize : Checked R _) = .ok n)
      (hg : ofTargets [n] = .ok g) : Yields e g
  | described {g g' : ScalarGraph R} (hg : Yields e g) (h : g.describeLeaves = .ok g') :
      Yields e g'
  | reduced {g g' : ScalarGraph R} {tables : OptimizedTables R} (hg : Yields e g)
      (h : g.eliminateZeros tables = .ok g') : Yields e g'
  | factorized {g : ScalarGraph R} {rank : Nat} {F : Factorization R} (hg : Yields e g)
      (h : g.factorize rank = .ok F) : Yields e F.graph
  | assigned {g : ScalarGraph R} (hg : Yields e g) (tables : OptimizedTables R) :
      Yields e (g.assignTables tables)
  | partitioned {g g' : ScalarGraph R} (hg : Yields e g) (h : LoopPlan.partitioned g = .ok g') :
      Yields e g'

/-- **Passes keep what constructors keep.** A closed property of an expression holds of whatever
stands in a graph that passes make of it. -/
theorem Expr.Yields.holds {Q : Expr R → Prop} (hQ : Expr.Closed Q) (hone : Q (Expr.real Scalar.one))
    (he : Q e) (h : e.Yields g) : g.WellFormed ∧ g.Holds Q := by
  -- one step per pass; all but the first start from a graph of the same kind
  induction h with
  | scalarized hn hg =>
    refine ⟨ofTargets_wellFormed hg, ofTargets_closed hQ (fun n hn' => ?_) hg⟩
    rw [List.mem_singleton.mp hn']
    exact hQ.normalize hone he hn
  | described hg h ih =>
    exact ⟨describeLeaves_wellFormed ih.1 h, fun i e he =>
      ih.2 i e ((describeLeaves_reannotates h).expr.mp he)⟩
  | reduced hg h ih => exact ih.2.eliminateZeros hQ h
  | factorized hg h ih => exact factorize_holds (keeps_closed hQ) hone ih.1 ih.2 h
  | assigned hg tables ih =>
    exact ⟨assignTables_wellFormed ih.1 tables, fun i e he =>
      ih.2 i e ((assignTables_reannotates _ tables).expr.mp he)⟩
  | partitioned hg h ih =>
    have hp := partition_returns ih.1 (partitioned_returns h)
    exact ⟨hp.wellFormed ih.1, fun i e he => ih.2 i e (hp.reannotates.expr.mp he)⟩

/-- The graphs of an expression are well formed. -/
theorem Expr.Yields.wellFormed (h : e.Yields g) : g.WellFormed := by
  -- all expressions are drawn from all terminals
  have hall : Expr.DrawnFrom (fun _ => True) e := fun _ _ _ => trivial
  exact (h.holds Expr.drawnFrom_closed (fun _ _ _ => trivial) hall).1

/-- What stands in a graph is made of quantities of the expression. -/
theorem Expr.Yields.drawnFrom (h : e.Yields g) :
    g.Holds (Expr.DrawnFrom fun t => Expr.Subexpression (.leaf t) e) :=
  (h.holds Expr.drawnFrom_closed
    (Expr.drawnFrom_constant (Expr.isConstantValue_literal _)) (Expr.drawnFrom_self e)).2

variable {i : NodeId} {n : Node R} {t : Terminal R}

/-- **No pass invents a quantity.** What stands at the core of a node occurs in the expression. -/
theorem Expr.Yields.core_occurs (h : e.Yields g) (hn : g.nodes[i]? = some n)
    (ht : n.expr.core = some t) (hq : t.isQuantity) : Expr.Subexpression (.leaf t) e :=
  h.drawnFrom i n.expr (expr_eq_ok.mpr ⟨n, hn, rfl⟩) t (Expr.subexpression_core ht) hq

/-- The terminal that is noted about a node occurs in the expression. -/
theorem Expr.Yields.terminal_occurs (h : e.Yields g) (hn : g.nodes[i]? = some n)
    {m : ModifiedTerminal R} (hm : n.terminal = some m) (hq : m.terminal.isQuantity) :
    Expr.Subexpression (.leaf m.terminal) e :=
  h.core_occurs hn (Describes.terminal ((h.wellFormed.nodes i n hn).noted m hm)).2 hq

end Graphs

end WeakForm
