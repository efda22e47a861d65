import WeakForm.Proofs.Blocks
import WeakForm.Proofs.ElementNumbers
import WeakForm.Proofs.PassErrors
import WeakForm.Proofs.TerminalSources

/-!
# Every element that is asked for is numbered

The elements of an integral are numbered on its integrands as they are given, and tables are
asked for the leaves of graphs that several passes later are made of them. A table is named by
the ordinal of its element, and there is one: no pass invents a quantity, so every terminal that
is read from an element occurs in an integrand. A plan then fails for other reasons only.

* `Error.OfPlans` — the errors of plans, of which none is about an element without a number;
* `OptimizedTables.build_raises` — the errors of tables, if all elements have numbers;
* `Yields.numbered` — the elements of a graph of an integrand have numbers;
* `IntegralPlan.build_raises` — the errors of a plan;
* `sources_numbered` — no pass invents a quantity, and every element is numbered.
-/

namespace WeakForm

open ScalarGraph

variable {R : Type}

/-- The errors of plans: those of the passes on graphs, different tables under one name, and
missing basis values, but never those of an element without a number. -/
inductive Error.OfPlans : Error R → Prop
  | graphs {err : Error R} (h : err.OfGraphs) : OfPlans err
  | tableCollision (name : String) : OfPlans (.tableCollision name)
  | missingBasis (cause : MissingBasis R) (h : ∀ x, cause ≠ .notNumbered x) :
      OfPlans (.missingBasis cause)

open Error

/-- No error of plans reports an element without a number. -/
theorem Error.OfPlans.ne_notNumbered {err : Error R} (h : err.OfPlans) (x : ElementId) :
    err ≠ .missingBasis (.notNumbered x) := by
  rintro rfl
  cases h with
  | graphs h =>
    cases h with
    | degrees h => cases h
  | missingBasis _ h => exact h x rfl

theorem Raises.ofPlans {α : Type} {x : Result R α} (h : Raises OfGraphs x) : Raises OfPlans x :=
  fun err herr => .graphs (h err herr)

/-! ## Tables -/

section Tables

variable {m : ModifiedTerminal R} {d : Domain}

/-- Describing the source of a table breaks no rule but those of constructions. -/
theorem ModifiedTerminal.tableSource_raises (m : ModifiedTerminal R) (d : Domain)
    (overflow : Overflow) : Raises OfGraphs (m.tableSource d overflow) := by
  unfold tableSource
  split
  -- arguments and coefficients
  · exact (raises_checked _).bind fun _ _ => raises_ok _
  · exact (raises_checked _).bind fun _ _ => raises_ok _
  -- coordinates, the Jacobian, and the other geometric quantities, which are not tabulated
  · split
    · refine (raises_checked _).bind fun _ _ => ?_
      exact (raises_checked _).bind fun _ _ => raises_ok _
    · -- the Jacobian has no physical derivatives
      split
      · refine (raises_checked _).bind fun _ _ => (raises_checked _).bind fun _ _ => ?_
        exact (raises_checked _).bind fun _ _ => raises_ok _
      · exact raises_error (.modifiers _ _)
    · exact raises_ok _
  · exact raises_ok _
  · exact raises_ok _

namespace TableSource

theorem permutations_raises (basis : BasisValues R) (k : BasisKey) (expected : Option Nat) :
    Raises OfPlans (permutations basis k expected) := by
  unfold permutations
  dsimp only
  split
  · exact raises_error (.missingBasis _ nofun)
  · split
    · exact raises_ok _
    · split
      · exact raises_ok _
      · exact raises_error (.missingBasis _ nofun)

theorem gather_raises (basis : BasisValues R) (ks : List BasisKey) (expected : Option Nat) :
    Raises OfPlans (gather basis ks expected) := by
  induction ks generalizing expected with
  | nil => exact raises_ok _
  | cons k ks ih =>
    refine (permutations_raises basis k expected).bind fun tables _ => ?_
    exact (ih _).bind fun _ _ => raises_ok _

theorem checkBasis_raises (s : TableSource) (points dofs component : Nat) (t : BasisTable R) :
    Raises OfPlans (s.checkBasis points dofs component t) := by
  unfold checkBasis
  dsimp only
  split
  · split
    · exact raises_ok _
    · exact raises_error (OfPlans.missingBasis _ nofun)
  · split
    · exact raises_error (.missingBasis _ nofun)
    · exact raises_error (OfPlans.missingBasis _ nofun)

theorem assemble_raises [Scalar R] (s : TableSource) (points : Nat) (type : IntegralType)
    (d : Domain) (averaged : Option Averaging) (basis : BasisValues R) :
    Raises OfPlans (s.assemble points type d averaged basis) := by
  refine (gather_raises basis _ none).bind fun byEntity _ => ?_
  split
  · exact raises_error (.missingBasis _ nofun)
  · refine Raises.bind (raises_forM fun t _ => ?_) fun _ _ => raises_ok _
    exact checkBasis_raises s _ _ _ t

end TableSource

namespace OptimizedTables

variable [DecidableEq R] [Scalar R] {elements : ElementNumbering} {overflow : Overflow}

/-- Every table that the terminals are read from is that of an element with a number. -/
def Numbered (terminals : List (ModifiedTerminal R)) (d : Domain) (elements : ElementNumbering)
    (overflow : Overflow) : Prop :=
  ∀ m ∈ terminals, ∀ s, m.tableSource d overflow = .ok (some s) →
    ∃ k, elements.ordinal? s.element = some k

omit [DecidableEq R] in
/-- Naming and assembling a table misses no element number when the element has one. -/
theorem addTerminal_raises {points : Nat} {type : IntegralType} {basis : BasisValues R}
    {tol : Tolerance R} (named : Named R)
    (h : ∀ s, m.tableSource d overflow = .ok (some s) →
      ∃ k, elements.ordinal? s.element = some k) :
    Raises OfPlans (addTerminal points type d elements basis tol overflow named m) := by
  refine (m.tableSource_raises d overflow).ofPlans.bind fun source hsource => ?_
  cases source with
  | none => exact raises_ok _
  | some s =>
    obtain ⟨k, hk⟩ := h s hsource
    -- the element has a number, so the source has a name
    have hname : Raises OfPlans
        (sourceName s m.averaged elements type points : Result R String) := by
      rw [sourceName, hk]
      exact raises_ok _
    refine hname.bind fun name _ => ?_
    dsimp only
    split
    · exact raises_ok _
    · refine (s.assemble_raises points type d m.averaged basis).bind fun values _ => raises_ok _

/-- **Tables are built or basis values are missing**, where all elements have numbers. -/
theorem build_raises {points : Nat} {type : IntegralType} {basis : BasisValues R}
    {tol : Tolerance R} {terminals : List (ModifiedTerminal R)}
    (h : Numbered terminals d elements overflow) :
    Raises OfPlans
      (OptimizedTables.build points type d terminals elements basis tol overflow) := by
  refine Raises.bind (raises_foldlM (fun named m hm => ?_) _) fun _ _ => raises_ok _
  exact addTerminal_raises named (h m hm)

end OptimizedTables

end Tables

/-! ## Elements of integrands -/

/-- A terminal with an element is a quantity. -/
theorem Terminal.isQuantity_of_basisElement? {t : Terminal R} {x : ElementId}
    (h : t.basisElement? = some x) : t.isQuantity := by
  cases t with
  | argument | coefficient | geometry => rfl
  | literal | zero => cases h

section Integrands

variable [DecidableEq R] [Scalar R] {e : Expr R} {g : ScalarGraph R} {es : List (Expr R)}
  {m : ModifiedTerminal R}

/-- A terminal that describes a leaf occurs in the expression, if it is a quantity. -/
theorem Expr.Yields.occurs (h : e.Yields g) {i : NodeId} (hm : g.IsLeaf i m)
    (hq : m.terminal.isQuantity) : Expr.Subexpression (.leaf m.terminal) e := by
  obtain ⟨n, hn, -, hd⟩ := hm
  exact h.core_occurs hn hd.terminal.2 hq

/-- **What the table of a leaf is read from has a number**, if the integrand is one of those that
numbers were given to. -/
theorem Expr.Yields.numbered (h : e.Yields g) (he : e ∈ es) {i : NodeId} (hm : g.IsLeaf i m)
    {d : Domain} {overflow : Overflow} {s : TableSource}
    (hs : m.tableSource d overflow = .ok (some s)) :
    ∃ k, (ElementNumbering.ofExprs es).ordinal? s.element = some k := by
  have helement := ModifiedTerminal.tableSource_element hs
  rw [ElementNumbering.exists_ordinal]
  exact ⟨e, he, m.terminal, h.occurs hm (Terminal.isQuantity_of_basisElement? helement), helement⟩

omit [Scalar R] in
/-- The terminals that are noted belong to leaves. -/
theorem ScalarGraph.WellFormed.isLeaf_of_terminal (hg : g.WellFormed) (hm : m ∈ g.terminals) :
    ∃ i, g.IsLeaf i m := by
  obtain ⟨n, hn, hm⟩ := List.mem_filterMap.mp hm
  obtain ⟨i, hn⟩ := Array.mem_iff_getElem?.mp (Array.mem_toList_iff.mp hn)
  exact ⟨i, isLeaf_of_describes hg hn ((hg.nodes i n hn).noted m hm)⟩

end Integrands

/-! ## Plans -/

section Plans

variable [DecidableEq R]

theorem argumentTables_raises (tables : OptimizedTables R) (arguments : List (ModifiedTerminal R)) :
    Raises OfPlans (LoopPlan.argumentTables tables arguments) := by
  refine raises_mapM fun m _ => ?_
  split
  · exact raises_ok _
  · exact raises_error (.missingBasis _ nofun)

theorem ofTerms_raises (F : Factorization R) (tables : List TableReference) (points : Nat) :
    Raises OfGraphs (Block.ofTerms F tables points) := by
  refine raises_mapM fun term _ => Raises.bind (raises_mapM fun p _ => ?_) fun _ _ => raises_ok _
  unfold Block.argument
  split
  · exact raises_ok _
  · exact raises_error (.breach _)

variable [Scalar R]

/-- The errors of a loop over an integrand that numbers were given to. -/
theorem LoopPlan.build_raises (problem : IntegralProblem R) {es : List (Expr R)}
    (parameters : Parameters R) (overflow : Overflow) (points : Nat) {e : Expr R} (he : e ∈ es) :
    Raises OfPlans (LoopPlan.build problem (.ofExprs es) parameters points e overflow) := by
  refine (raises_checked _).ofPlans.bind fun n hn => ?_
  refine (ofTargets_raises _).ofPlans.bind fun scalar hscalar => ?_
  refine (describeLeaves_raises _).ofPlans.bind fun described hdescribed => ?_
  -- the graph that tables are built for is one that passes make of the integrand
  have hyields : e.Yields described :=
    .described (.scalarized (lift_eq_ok.mp hn) hscalar) hdescribed
  refine (OptimizedTables.build_raises fun m hm s hs => ?_).bind fun tables _ => ?_
  · obtain ⟨i, hi⟩ := hyields.wellFormed.isLeaf_of_terminal hm
    exact hyields.numbered he hi hs
  dsimp only
  -- from here on, the passes read tables and ask for none
  refine (eliminateZeros_raises described tables).ofPlans.ite_bind (raises_ok _) fun reduced => ?_
  refine (factorize_raises reduced problem.rank).ofPlans.bind fun F _ => ?_
  refine (describeLeaves_raises _).ofPlans.bind fun factors _ => ?_
  refine (partitioned_raises _).ofPlans.bind fun graph _ => ?_
  refine (argumentTables_raises tables _).bind fun arguments _ => ?_
  refine (ofTerms_raises _ _ _).ofPlans.bind fun blocks _ => ?_
  exact (raises_checked _).ofPlans.bind fun registers _ => raises_ok _

/-- Adding a loop to a plan reports no more than collisions. -/
theorem addLoop_raises (plan : IntegralPlan R) (points : Nat) (loop : LoopPlan R)
    (context : LoopContext R) : Raises OfPlans (plan.addLoop points loop context) := by
  refine Raises.bind ?_ fun _ _ => raises_ok _
  unfold IntegralPlan.mergeTables
  -- a table whose name is taken must be the one that has it
  rw [Std.TreeMap.foldlM_eq_foldlM_toList]
  refine raises_foldlM (fun all entry _ => ?_) _
  split
  · exact raises_ok _
  · split
    · exact raises_ok _
    · exact raises_error (.tableCollision _)

/-- **The errors of a plan.** None is about an element without a number. -/
theorem IntegralPlan.build_raises (problem : IntegralProblem R) (parameters : Parameters R)
    (overflow : Overflow) : Raises OfPlans (IntegralPlan.build problem parameters overflow) := by
  refine Raises.bind (raises_mapM fun given hgiven => ?_) fun loops _ =>
    raises_foldlM (fun plan made _ => addLoop_raises plan _ _ _) _
  -- numbers are given to all integrands at once
  have he : given.2 ∈ problem.integrands.values := by
    rw [values_eq_map]
    exact List.mem_map.mpr ⟨given, hgiven, rfl⟩
  exact (LoopPlan.build_raises problem parameters overflow given.1 he).bind fun _ _ => raises_ok _

/-- **No pass invents a quantity, and every element that is asked for is numbered.** In any graph
that the passes make of an expression, the arguments, coefficients and geometric quantities at the
core of leaves occur in the expression. So what the table of a leaf is read from, in a graph of an
integrand, has a number, and no plan fails for want of one. -/
theorem sources_numbered :
    (∀ (e : Expr R) (g : ScalarGraph R), e.Yields g →
      ∀ (i : NodeId) (n : Node R), g.nodes[i]? = some n → n.isLeaf →
        ∀ t : Terminal R, t.isQuantity →
          (n.expr.core = some t ∨ ∃ m, n.terminal = some m ∧ m.terminal = t) →
            Expr.Subexpression (.leaf t) e) ∧
    ∀ (problem : IntegralProblem R) (parameters : Parameters R) (overflow : Overflow),
      (∀ (points : Nat) (e : Expr R), problem.integrands[points]? = some e →
        ∀ g : ScalarGraph R, e.Yields g → ∀ (i : NodeId) (m : ModifiedTerminal R), g.IsLeaf i m →
          ∀ (d : Domain) (s : TableSource), m.tableSource d overflow = .ok (some s) →
            ∃ k, (ElementNumbering.ofExprs problem.integrands.values).ordinal? s.element =
              some k) ∧
      ∀ x, IntegralPlan.build problem parameters overflow ≠
        .error (.missingBasis (.notNumbered x)) := by
  refine ⟨fun e g hyields i n hn _ t hq ht => ?_,
    fun problem parameters overflow => ⟨?_, fun x hbuild => ?_⟩⟩
  -- a quantity at the core of a leaf occurs, and so does the one its descriptor names
  · rcases ht with hcore | ⟨m, hm, rfl⟩
    · exact hyields.core_occurs hn hcore hq
    · exact hyields.terminal_occurs hn hm hq
  -- elements are numbered over all integrands of the problem
  · intro points e he g hyields i m hm d s hs
    refine hyields.numbered ?_ hm hs
    rw [values_eq_map]
    have hmem := Std.TreeMap.mem_toList_iff_getElem?_eq_some.mpr he
    exact List.mem_map.mpr ⟨(points, e), hmem, rfl⟩
  -- and building a plan raises errors of plans only
  · exact (IntegralPlan.build_raises problem parameters overflow _ hbuild).ne_notNumbered x rfl

open SingleTest (test descriptor)
open ScaledTest VertexTest

/-- At the vertices of a triangle, a test function times the volume and over it: both stand in the
graph of factors and in the form, and the element of the test function is numbered. -/
theorem sources_numbered_vertexTest :
    form.Yields (factorsWith none .inactive) ∧
      Expr.Subexpression (.leaf descriptor.terminal) form ∧
      Expr.Subexpression (.leaf volumeDescriptor.terminal) form ∧
      (∃ k, (ElementNumbering.ofExprs problem.integrands.values).ordinal? source.element = some k) ∧
      ∀ x, IntegralPlan.build problem parameters ≠ .error (.missingBasis (.notNumbered x)) := by
  -- the graph of factors comes out of normalization, scalarization and factorization
  have hyields : form.Yields (factorsWith none .inactive) :=
    .described (.factorized (.described (.scalarized normalize_form ofTargets_form)
      describeLeaves_graph) factorize_described) describeLeaves_factors
  obtain ⟨hoccurs, hplan⟩ := sources_numbered (R := ℚ)
  obtain ⟨hnumbered, hbuild⟩ := hplan problem parameters .checked
  refine ⟨hyields, ?_, ?_, ?_, hbuild⟩
  -- the argument is the first leaf, and the volume the third
  · exact hoccurs form _ hyields 0 _ rfl rfl _ rfl (.inr ⟨descriptor, rfl, rfl⟩)
  · exact hoccurs form _ hyields 2 _ rfl rfl _ rfl (.inr ⟨volumeDescriptor, rfl, rfl⟩)
  · have hgiven : problem.integrands[1]? = some form := Std.TreeMap.getElem?_insert_self
    exact hnumbered 1 form hgiven _ hyields 0 descriptor
      ⟨_, rfl, rfl, SingleTest.analyse_test⟩ domain source (by cbv)

end Plans

end WeakForm
