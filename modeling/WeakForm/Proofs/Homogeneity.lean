import WeakForm.Proofs.FactorDegrees
import WeakForm.Proofs.Rebuilding
import WeakForm.Proofs.WellFactored

/-!
# Homogeneous targets

The degree of a scalar expression is the number of arguments that each of its terms has. It is
defined where a sum has terms of one degree, no divisor has arguments, and no other operator is
taken over arguments. A form of a rank is factorized exactly if every node of its graph has a
degree, and every target has that of the form or is zero. If a node has none, the factorization
fails at the first such node, with the error of its operator.

The sweep of the factorization computes no degrees. A node is swept after its operands, and what
it finds about them tells their degrees: so the factors of a node are those of a value of its
degree, and where it has none the arithmetic on the factors of its operands fails.

* `Expr.degree`, `Expr.degreeError` — degrees, and the error of an expression without one;
* `operator_sweepsTo`, `sweepNode_sweepsTo` — one node is swept to factors of its degree;
* `sweepNodes_completes`, `sweepNodes_throws` — all nodes, and the first one without a degree;
* `targetTerms_completes`, `targetTerms_throws`, `collectTargets_outcome` — one target, and all;
* `factorize_outcome`, `factorize_homogeneous` — what is factorized, and the errors otherwise;
* `Homogeneous.divisor_argumentFree` — no divisor has arguments.
-/

namespace WeakForm

open Building ScalarGraph

variable {R : Type}

/-! ## Degrees -/

/-- The degree of an operator over values of given degrees. -/
def BinaryOp.degree : BinaryOp → Option Nat → Option Nat → Option Nat
  | .sum, some m, some n => if m = n then some m else none
  | .product, some m, some n => some (m + n)
  | .division, some m, some 0 => some m
  | .power, some 0, some 0 => some 0
  | _, _, _ => none

/-- Where the degree is zero, both operands have that degree. -/
theorem BinaryOp.degree_eq_zero {op : BinaryOp} {m n : Option Nat} (h : op.degree m n = some 0) :
    m = some 0 ∧ n = some 0 := by
  unfold BinaryOp.degree at h
  split at h
  · -- a sum: the degrees are equal
    next m n =>
    split at h
    · next heq =>
      obtain rfl := Option.some.inj h
      exact ⟨rfl, by rw [heq]⟩
    · cases h
  · -- a product: they add up to zero
    next m n =>
    obtain ⟨rfl, rfl⟩ := Nat.add_eq_zero_iff.mp (Option.some.inj h)
    exact ⟨rfl, rfl⟩
  -- a quotient keeps the degree of the dividend, and its divisor has degree zero
  · exact ⟨h, rfl⟩
  -- a power has a degree only for two operands of degree zero
  · exact ⟨rfl, rfl⟩
  · cases h

/-- The error is one of degrees: an expression has none, or that of a target is not the rank. -/
inductive Error.OfDegrees : Error R → Prop where
  | argumentDivisor (e : Expr R) : OfDegrees (.argumentDivisor e)
  | nonlinear (e : Expr R) : OfDegrees (.nonlinear e)
  | mixedRank (m n : Nat) (e : Expr R) : OfDegrees (.mixedRank m n e)
  | rankMismatch (m n : Nat) (e : Expr R) : OfDegrees (.rankMismatch m n e)

/-- A divisor has degree zero. -/
theorem BinaryOp.divisor_degree {m n : Option Nat} {d : Nat}
    (h : BinaryOp.degree .division m n = some d) : n = some 0 :=
  match m, n, h with
  | some _, some 0, _ => rfl

namespace Expr

/-- An argument under modifiers. -/
def isArgument (e : Expr R) : Bool :=
  match e.analyse with
  | .ok (some m) => m.isArgument
  | _ => false

/-- The number of arguments of the terms of a scalar expression, if all have the same. -/
def degree : Expr R → Option Nat
  | binary op a b => op.degree a.degree b.degree
  | unary (.math _) a | unary .abs a => a.degree.filter (· = 0)
  | e => some (if e.isArgument then 1 else 0)

/-- The error of a node without a degree, if its operands have one. -/
def degreeError (e : Expr R) : Error R :=
  match e with
  | binary .sum a b => .mixedRank (a.degree.getD 0) (b.degree.getD 0) e
  | binary .division _ _ => .argumentDivisor e
  | _ => .nonlinear e

variable {a e : Expr R}

theorem degreeError_ofDegrees (e : Expr R) : e.degreeError.OfDegrees := by
  unfold degreeError
  split
  · exact .mixedRank _ _ _
  · exact .argumentDivisor _
  · exact .nonlinear _

/-- A node without operands has degree one as an argument and zero otherwise. -/
theorem degree_leaf (h : operandsOf e = []) : e.degree = some (if e.isArgument then 1 else 0) := by
  unfold operandsOf at h
  split at h
  · cases h
  · cases h
  · cases h
  -- none of the operators with a degree rule of their own is left
  · next hbinary hmath habs =>
    unfold degree
    split
    · next op a b => exact (hbinary op a b rfl).elim
    · next f a => exact (hmath f a rfl).elim
    · next a => exact (habs a rfl).elim
    · rfl

/-- A function of an expression has degree zero when its operand has. -/
theorem degree_unary {op : UnaryOp} (h : operandsOf (unary op a) = [a]) :
    (unary op a).degree = a.degree.filter (· = 0) := by
  rcases eq_math_or_abs h with ⟨f, rfl⟩ | rfl
  · rw [degree]
  · rw [degree]

/-- Operators over values without arguments have none. -/
theorem degree_of_operands (hne : operandsOf e ≠ [])
    (h : ∀ a ∈ operandsOf e, a.degree = some 0) : e.degree = some 0 := by
  cases e with
  | leaf | listTensor => exact absurd rfl hne
  | unary op a =>
    cases op with
    | math | abs =>
      -- a function of degree zero
      rw [degree_unary rfl, h a (List.mem_singleton.mpr rfl)]
      rfl
    | indexSum | indexed | componentTensor | restricted | grad | referenceGrad
      | spatialDerivative | averaged | labelled => exact absurd rfl hne
  | binary op a b =>
    rw [degree, h a List.mem_cons_self, h b (List.mem_cons_of_mem _ List.mem_cons_self)]
    -- every binary operator takes two zero degrees to zero
    cases op <;> rfl

/-- A value without arguments has operands without arguments. -/
theorem degree_operand (h : e.degree = some 0) (ha : a ∈ operandsOf e) : a.degree = some 0 := by
  cases e with
  | leaf | listTensor => cases ha
  | unary op b =>
    cases op with
    | math | abs =>
      obtain rfl := List.mem_singleton.mp ha
      rw [degree_unary rfl] at h
      exact (Option.filter_eq_some_iff.mp h).1
    | indexSum | indexed | componentTensor | restricted | grad | referenceGrad
      | spatialDerivative | averaged | labelled => cases ha
  | binary op b c =>
    obtain ⟨hb, hc⟩ := BinaryOp.degree_eq_zero h
    rcases List.mem_pair.mp ha with rfl | rfl
    · exact hb
    · exact hc

/-- Every part of an expression of degree zero has degree zero. -/
theorem degree_part (h : e.degree = some 0) (ha : Part a e) : a.degree = some 0 := by
  induction ha with
  | refl => exact h
  | operand hb _ ih => exact ih (degree_operand h hb)

end Expr

namespace ScalarGraph

variable {e : Expr R} {m : ModifiedTerminal R}

theorem Describes.isArgument (h : Describes m e) : e.isArgument = m.isArgument := by
  rw [Expr.isArgument, h]

/-- An argument has a descriptor. -/
theorem exists_describes (h : e.isArgument) : ∃ m, Describes m e ∧ m.isArgument := by
  unfold Expr.isArgument at h
  split at h
  · next m hm => exact ⟨m, hm, h⟩
  · cases h

/-- Arguments are leaves. -/
theorem operandsOf_argument (h : e.isArgument) : operandsOf e = [] := by
  obtain ⟨m, hd, -⟩ := exists_describes h
  exact hd.operandsOf_eq_nil

theorem degree_argument (h : e.isArgument) : e.degree = some 1 := by
  rw [Expr.degree_leaf (operandsOf_argument h), if_pos h]

end ScalarGraph

/-! ## One node -/

section Sweep

variable [Scalar R] [DecidableEq R] {g g₀ : ScalarGraph R}

/-- The computation ends with factors of the degree of the expression, or it fails with its
error if there is none. -/
def Expr.SweepsTo (e : Expr R) (m : Building R Factors) (g : ScalarGraph R) : Prop :=
  (∀ d, e.degree = some d → Completes m g fun f g' => f.OfDegree e d g') ∧
    (e.degree = none → Throws m g e.degreeError)

omit [Scalar R] in
theorem Expr.sweepsTo_of_some {e : Expr R} {d : Nat} {m : Building R Factors}
    (he : e.degree = some d) (h : Completes m g fun f g' => f.OfDegree e d g') :
    e.SweepsTo m g := by
  refine ⟨fun d' hd => ?_, fun hnone => ?_⟩
  · rw [he] at hd
    cases hd
    exact h
  · rw [he] at hnone
    cases hnone

omit [Scalar R] in
theorem Expr.sweepsTo_of_none {e : Expr R} {m : Building R Factors} (he : e.degree = none)
    (h : Throws m g e.degreeError) : e.SweepsTo m g := by
  refine ⟨fun d hd => ?_, fun _ => h⟩
  rw [he] at hd
  cases hd

namespace Factors

open WeakForm.Expr

/-- The factors of a node that has a degree. -/
def Stand (a : Expr R) (f : Factors) (g : ScalarGraph R) : Prop :=
  ∃ d, a.degree = some d ∧ f.OfDegree a d g

omit [Scalar R] in
theorem Stand.isFree_iff {a : Expr R} {f : Factors} (h : Stand a f g) :
    f.isFree ↔ a.degree = some 0 := by
  obtain ⟨d, hd, hf⟩ := h
  rw [hf.isFree_iff, hd, Option.some.injEq]

variable {a b : Expr R} {x y : Factors}

omit [Scalar R] in
/-- An operator over an operand with arguments has no degree. -/
theorem degree_unary_eq_none {op : UnaryOp} (hop : operandsOf (unary op a) = [a])
    (hx : Stand a x g) (hfree : ¬x.isFree) : (unary op a).degree = none := by
  obtain ⟨d, hd, hf⟩ := hx
  rw [hf.isFree_iff] at hfree
  rw [degree_unary hop, hd, Option.filter_some, if_neg (by simpa using hfree)]

/-- Two operands, of which one has arguments. -/
theorem binary_sweepsTo {op : BinaryOp} (hg : g.Carries Insertable)
    (hc : Canonical (binary op a b)) (hx : Stand a x g) (hy : Stand b y g)
    (hfree : ¬(x.isFree ∧ y.isFree)) :
    (binary op a b).SweepsTo (operator (binary op a b) [x, y]) g := by
  obtain ⟨m, hm, hx⟩ := hx
  obtain ⟨n, hn, hy⟩ := hy
  rw [hx.isFree_iff, hy.isFree_iff] at hfree
  have hdegree : (binary op a b).degree = op.degree (some m) (some n) := by
    rw [degree, hm, hn]
  cases op with
  | sum =>
    -- a sum needs equal degrees, and reports the two it found otherwise
    by_cases heq : m = n
    · subst heq
      exact sweepsTo_of_some (hdegree.trans (if_pos rfl)) (sum_completes hg (by omega) hx hy)
    · refine sweepsTo_of_none (hdegree.trans (if_neg heq)) ?_
      rw [degreeError, hm, hn]
      exact sum_throws hx hy heq
  | product => exact sweepsTo_of_some hdegree (product_completes hg (by omega) hx hy)
  | division =>
    cases n with
    | zero =>
      -- the divisor is not zero, since the quotient was built
      cases hc with
      | binary _ _ happly =>
      have hz := (div_built happly).2.1
      exact sweepsTo_of_some hdegree (division_completes hg (by omega) hx hy hz)
    -- a divisor with arguments is refused
    | succ n => exact sweepsTo_of_none hdegree (division_throws (Nat.succ_pos n) hy)
  | power =>
    refine sweepsTo_of_none (hdegree.trans ?_) throws_throw
    -- a power with arguments has no degree whichever operand holds them
    match m, n with
    | 0, 0 => exact absurd ⟨rfl, rfl⟩ hfree
    | 0, n + 1 => rfl
    | m + 1, _ => rfl

/-- **An operator over values of which one has arguments.** -/
theorem operator_sweepsTo {e : Expr R} {fs : List Factors} (hg : g.Carries Insertable)
    (hc : Canonical e) (hfs : List.Forall₂ (fun a f => Stand a f g) (operandsOf e) fs)
    (hfree : fs.all (·.isFree) = false) : e.SweepsTo (operator e fs) g := by
  have hne : fs ≠ [] := fun h => by
    rw [h] at hfree
    cases hfree
  cases e with
  | leaf | listTensor => exact absurd (List.forall₂_nil_left_iff.mp hfs) hne
  | unary op a =>
    by_cases hop : operandsOf (unary op a) = [a]
    · rw [hop] at hfs
      obtain ⟨f, fs, hf, hnil, rfl⟩ := List.forall₂_cons_left_iff.mp hfs
      obtain rfl := List.forall₂_nil_left_iff.mp hnil
      -- a function of arguments has no degree
      exact sweepsTo_of_none (degree_unary_eq_none hop hf (by simpa using hfree)) throws_throw
    · cases op with
      | math | abs => exact absurd rfl hop
      | indexSum | indexed | componentTensor | restricted | grad | referenceGrad
        | spatialDerivative | averaged | labelled =>
        exact absurd (List.forall₂_nil_left_iff.mp hfs) hne
  | binary op a b =>
    obtain ⟨x, rest, hx, hrest, rfl⟩ := List.forall₂_cons_left_iff.mp hfs
    obtain ⟨y, rest, hy, hnil, rfl⟩ := List.forall₂_cons_left_iff.mp hrest
    obtain rfl := List.forall₂_nil_left_iff.mp hnil
    exact binary_sweepsTo hg hc hx hy (by simpa using hfree)

end Factors

namespace ScalarGraph

open WeakForm.Expr

/-- The first nodes are swept, and their factors stand for what they hold. -/
structure SweptDegrees (g₀ : ScalarGraph R) (k : Nat) (swept : Array Factors) (g : ScalarGraph R) :
    Prop where
  size : swept.size = k
  stand : ∀ (j : NodeId) (f : Factors) (a : Expr R), swept[j]? = some f → g₀.expr j = .ok a →
    Factors.Stand a f g

omit [Scalar R] in
/-- The factors of a node that was swept are read. -/
theorem SweptDegrees.read {k : Nat} {swept : Array Factors} (h : g₀.SweptDegrees k swept g)
    {j : NodeId} (hj : j < k) {a : Expr R} (ha : g₀.expr j = .ok a) :
    ∃ f, Returns (sweptOperand swept j) g f g ∧ Factors.Stand a f g := by
  rw [← h.size] at hj
  have hf : swept[j]? = some swept[j] := Array.getElem?_eq_getElem hj
  refine ⟨swept[j], ?_, h.stand j _ a hf ha⟩
  rw [sweptOperand, hf]
  exact returns_pure.mpr ⟨rfl, rfl⟩

omit [Scalar R] in
/-- Operands before the node are swept, and their factors stand for them. -/
theorem SweptDegrees.operands {k : Nat} {swept : Array Factors} (h : g₀.SweptDegrees k swept g)
    {ids : List NodeId} {as : List (Expr R)}
    (hids : List.Forall₂ (fun j a => j < k ∧ g₀.expr j = .ok a) ids as) :
    ∃ fs, Returns (ids.mapM (sweptOperand swept)) g fs g ∧
      List.Forall₂ (fun a f => Factors.Stand a f g) as fs := by
  induction hids with
  | nil => exact ⟨[], returns_pure.mpr ⟨rfl, rfl⟩, .nil⟩
  | @cons j a ids as hj _ ih =>
    obtain ⟨fs, hfs, hstand⟩ := ih
    obtain ⟨f, hread, hf⟩ := h.read hj.1 hj.2
    refine ⟨f :: fs, ?_, .cons hf hstand⟩
    simp only [List.mapM_cons, returns_bind, returns_pure]
    exact ⟨f, g, hread, fs, g, hfs, rfl, rfl⟩

/-- Positions in the argument vector are those of the nodes that are arguments. -/
def PositionsOf (g₀ : ScalarGraph R) (position? : NodeId → Option Nat) : Prop :=
  ∀ (i : NodeId) (n : Node R), g₀.nodes[i]? = some n → ((position? i).isSome ↔ n.expr.isArgument)

/-- **One node is swept to factors of its degree**, or the sweep fails with its error. -/
theorem sweepNode_sweepsTo (hg : g.Carries Insertable) {position? : NodeId → Option Nat}
    (hpos : g₀.PositionsOf position?) {one : NodeId} (hone : g.NodeWith Insertable one)
    {swept : Array Factors} {i : NodeId} (hswept : g₀.SweptDegrees i swept g) {n : Node R}
    (hn : g₀.nodes[i]? = some n) (hformed : g₀.NodeFormed i n) (hc : Canonical n.expr)
    (hi : Insertable n.expr) : n.expr.SweepsTo (sweepNode position? one swept n i) g := by
  unfold sweepNode
  cases hp : position? i with
  | some p =>
    -- an argument is keyed by its position, with one as factor
    have harg : n.expr.isArgument := (hpos i n hn).mp (by rw [hp]; rfl)
    exact sweepsTo_of_some (degree_argument harg) (completes_pure hg
      ⟨Nat.one_pos, FactorMap.ofDegree_insert FactorMap.each_empty rfl hone⟩)
  | none =>
    have harg : ¬n.expr.isArgument := fun h => by
      have hsome := (hpos i n hn).mpr h
      rw [hp] at hsome
      cases hsome
    -- operands stand before the node, so they are swept
    obtain ⟨fs, hfs, hstand⟩ := hswept.operands hformed.operands
    by_cases hfree : fs.all (·.isFree)
    · -- without arguments: the node has degree zero
      have hdegree : n.expr.degree = some 0 := by
        by_cases hnil : operandsOf n.expr = []
        · rw [degree_leaf hnil, if_neg harg]
        · refine degree_of_operands hnil fun a ha => ?_
          obtain ⟨f, hf, hstand⟩ := exists_left_of_mem hstand.flip ha
          exact Factors.Stand.isFree_iff hstand |>.mp (List.all_eq_true.mp hfree f hf)
      refine sweepsTo_of_some hdegree (.after hfs ?_)
      rw [if_pos hfree]
      exact (insert_completes hg hi).bind fun k g₂ hg₂ _ hk => completes_pure hg₂ ⟨rfl, hk⟩
    · obtain ⟨hends, hfails⟩ :=
        -- with arguments, the operator decides
        Factors.operator_sweepsTo hg hc hstand (Bool.eq_false_iff.mpr hfree)
      refine ⟨fun d hd => .after hfs ?_, fun hnone => .after hfs ?_⟩
      · rw [if_neg hfree]
        exact hends d hd
      · rw [if_neg hfree]
        exact hfails hnone

/-! ## All nodes -/

/-- The nodes before `k` have degrees. -/
def DegreesBelow (g₀ : ScalarGraph R) (k : Nat) : Prop :=
  ∀ i < k, ∀ e, g₀.expr i = .ok e → e.degree.isSome

/-- What is said of the graph whose nodes are swept. -/
structure Sweepable (g₀ : ScalarGraph R) (position? : NodeId → Option Nat) : Prop where
  wellFormed : g₀.WellFormed
  canonical : g₀.Holds Canonical
  insertable : g₀.Holds Insertable
  positions : g₀.PositionsOf position?

variable {position? : NodeId → Option Nat} {one : NodeId}

/-- One node more. -/
theorem Sweepable.node (h : g₀.Sweepable position?) (hg : g.Carries Insertable)
    (hone : g.NodeWith Insertable one) {swept : Array Factors} {i : NodeId}
    (hswept : g₀.SweptDegrees i swept g) {n : Node R} (hn : g₀.nodes[i]? = some n) :
    n.expr.SweepsTo (sweepNode position? one swept n i) g := by
  have he : g₀.expr i = .ok n.expr := expr_eq_ok.mpr ⟨n, hn, rfl⟩
  exact sweepNode_sweepsTo hg h.positions hone hswept hn (h.wellFormed.nodes i n hn)
    (h.canonical i _ he) (h.insertable i _ he)

omit [Scalar R] in
/-- A swept node extends the factors the sweep has found. -/
theorem SweptDegrees.push {k : Nat} {swept : Array Factors} (h : g₀.SweptDegrees k swept g)
    {g' : ScalarGraph R} (hext : g.Extends g') {n : Node R} (hn : g₀.nodes[k]? = some n)
    {f : Factors} (hf : Factors.Stand n.expr f g') : g₀.SweptDegrees (k + 1) (swept.push f) g' := by
  refine ⟨by rw [Array.size_push, h.size], fun j f' a hj ha => ?_⟩
  rw [Array.getElem?_push] at hj
  split at hj
  -- the node just swept
  · next heq =>
    cases hj
    rw [heq, h.size] at ha
    obtain ⟨n', hn', rfl⟩ := expr_eq_ok.mp ha
    rw [hn] at hn'
    cases hn'
    exact hf
  -- an earlier node, whose factors still stand in the larger graph
  · obtain ⟨d, hd, hf'⟩ := h.stand j f' a hj ha
    exact ⟨d, hd, hf'.mono hext⟩

/-- **Nodes with degrees are swept.** -/
theorem sweepNodes_completes (h : g₀.Sweepable position?) (hg : g.Carries Insertable)
    (hone : g.NodeWith Insertable one) {k : Nat} (hk : k ≤ g₀.size) (hdegrees : g₀.DegreesBelow k) :
    Completes ((g₀.nodes.toList.zipIdx.take k).foldlM
      (fun swept x => do return swept.push (← sweepNode position? one swept x.1 x.2)) #[]) g
      fun swept g' => g₀.SweptDegrees k swept g' := by
  have hlength : (g₀.nodes.toList.zipIdx.take k).length = k := by
    rw [List.length_take, List.length_zipIdx, Array.length_toList]
    exact Nat.min_eq_left hk
  have hempty : g₀.SweptDegrees 0 #[] g := ⟨rfl, fun j f a hj => by simp at hj⟩
  refine (completes_foldlM (S := fun done swept g' => g₀.SweptDegrees done.length swept g') hg
    hempty ?_).imp fun swept g' hswept => by rwa [hlength] at hswept
  intro done x swept g₁ hpre hg₁ hext hswept
  -- the item reached is the node numbered by what is done
  obtain ⟨hn, hx⟩ := item_of_done (hpre.trans (List.take_prefix _ _))
  have hlt : done.length < k := by
    have hle := hpre.length_le
    rw [List.length_append, hlength] at hle
    exact hle
  obtain ⟨d, hd⟩ := Option.isSome_iff_exists.mp
    (hdegrees done.length hlt x.1.expr (expr_eq_ok.mpr ⟨x.1, hn, rfl⟩))
  rw [hx, List.length_append]
  refine ((h.node hg₁ (hone.mono hext) hswept hn).1 d hd).bind fun f g₂ hg₂ hext₂ hf => ?_
  exact completes_pure hg₂ (hswept.push hext₂ hn ⟨d, hd, hf⟩)

/-- **The sweep fails at the first node without a degree.** -/
theorem sweepNodes_throws (h : g₀.Sweepable position?) (hg : g.Carries Insertable)
    (hone : g.NodeWith Insertable one) {k : Nat} {e : Expr R} (he : g₀.expr k = .ok e)
    (hnone : e.degree = none) (hdegrees : g₀.DegreesBelow k) :
    Throws (g₀.nodes.toList.zipIdx.foldlM
      (fun swept x => do return swept.push (← sweepNode position? one swept x.1 x.2)) #[]) g
      e.degreeError := by
  have hk := lt_size_of_expr he
  obtain ⟨n, hn, rfl⟩ := expr_eq_ok.mp he
  -- the nodes before it are swept
  have hsplit : g₀.nodes.toList.zipIdx = g₀.nodes.toList.zipIdx.take k ++
      (n, k) :: g₀.nodes.toList.zipIdx.drop (k + 1) := by
    have hget : g₀.nodes.toList.zipIdx[k]? = some (n, k) := by
      rw [List.getElem?_zipIdx, Array.getElem?_toList, hn, Nat.zero_add, Option.map_some]
    obtain ⟨hlt, hget⟩ := List.getElem?_eq_some_iff.mp hget
    rw [← hget, ← List.drop_eq_getElem_cons hlt, List.take_append_drop]
  rw [hsplit, List.foldlM_append]
  refine (sweepNodes_completes h hg hone (Nat.le_of_lt hk) hdegrees).throws
    fun swept g₁ hg₁ hext hswept => ?_
  rw [List.foldlM_cons]
  -- the node without a degree stops the sweep
  exact ((h.node hg₁ (hone.mono hext) hswept hn).2 hnone).bind.bind

/-! ## Targets -/

omit [DecidableEq R] in
/-- Zero has degree zero. -/
theorem degree_of_isZero {e : Expr R} (h : e.isZero) : e.degree = some 0 := by
  obtain ⟨t, rfl, ht⟩ : ∃ t, e = leaf t ∧ t.argument? = none := by
    unfold Expr.isZero at h
    split at h
    · exact ⟨_, rfl, rfl⟩
    · exact ⟨_, rfl, rfl⟩
    · cases h
  -- a zero is a terminal that is no argument
  rw [degree_leaf rfl, if_neg]
  intro harg
  obtain ⟨m, hd, hm⟩ := exists_describes harg
  rw [hd.isArgument_eq, core, Option.bind_some, ht] at hm
  cases hm

/-- What a target of a form holds: it has the degree of the form, or is zero. -/
def Fits (rank : Nat) (e : Expr R) : Prop :=
  e.degree = some rank ∨ e.isZero

variable {rank : Nat} {e : Expr R} {f : Factors}

/-- The terms of a target that fits the rank are collected. -/
theorem targetTerms_completes (hg : g.Carries Insertable) (hf : Factors.Stand e f g)
    (he : Fits rank e) : Completes (targetTerms rank e f) g fun _ g' => g' = g := by
  obtain ⟨d, hd, hf⟩ := hf
  cases f with
  | terms m =>
    have hrank : d = rank := by
      rcases he with he | hz
      · exact Option.some.inj (hd.symm.trans he)
      · -- what is zero has no arguments
        rw [degree_of_isZero hz, Option.some.injEq] at hd
        exact absurd hd (Nat.ne_of_lt hf.1)
    -- every key has as many positions as the degree says
    have hfind : m.keys.find? (·.length != rank) = none := by
      refine List.find?_eq_none.mpr fun key hkey => ?_
      simpa [← hrank] using hf.2.length (Std.TreeMap.mem_keys.mp hkey)
    rw [targetTerms, hfind]
    exact completes_pure hg rfl
  | free i =>
    obtain ⟨rfl, hi⟩ := hf
    rw [targetTerms]
    split
    · exact completes_pure hg rfl
    · next hrank =>
      -- a factor without arguments fits a form with arguments only when it is zero
      have hz : e.isZero := he.resolve_left fun h => hrank (Option.some.inj (h.symm.trans hd))
      refine .after (returns_get.mpr ⟨rfl, rfl⟩) (.after (returns_lift.mpr ⟨hi, rfl⟩) ?_)
      rw [if_pos hz]
      exact completes_pure hg rfl

/-- The terms of a target that does not fit are refused with the degree found. -/
theorem targetTerms_throws (hf : Factors.Stand e f g) (he : ¬Fits rank e) :
    ∃ d, Throws (targetTerms rank e f) g (.rankMismatch rank d e) := by
  obtain ⟨d, hd, hf⟩ := hf
  have hne : d ≠ rank := fun h => he (.inl (h ▸ hd))
  refine ⟨d, ?_⟩
  cases f with
  | terms m =>
    -- no key has as many positions as the form has arguments
    cases hfind : m.keys.find? (·.length != rank) with
    | none =>
      obtain ⟨key, hkey⟩ := hf.2.nonempty
      have hall := List.find?_eq_none.mp hfind key (Std.TreeMap.mem_keys.mpr hkey)
      rw [hf.2.length hkey] at hall
      exact absurd (by simpa using hall) hne
    | some key =>
      have hkey := Std.TreeMap.mem_keys.mp (List.mem_of_find?_eq_some hfind)
      rw [targetTerms, hfind, ← hf.2.length hkey]
      exact throws_throw
  | free i =>
    obtain ⟨rfl, hi⟩ := hf
    rw [targetTerms, if_neg (Ne.symm hne)]
    refine .after (returns_get.mpr ⟨rfl, rfl⟩) (.after (returns_lift.mpr ⟨hi, rfl⟩) ?_)
    rw [if_neg fun hz => he (.inr hz)]
    exact throws_throw

/-- The terms of a target component, with those of the components before. -/
def collectTarget (g₀ : ScalarGraph R) (rank : Nat) (swept : Array Factors) (terms : TermTable)
    (x : NodeId × Nat) : Building R TermTable := do
  let factors ← sweptOperand swept x.1
  return collectTerms terms (← targetTerms rank (← g₀.expr x.1) factors) x.2

variable {swept : Array Factors}

/-- A target that fits is collected. -/
theorem collectTarget_completes (hg : g.Carries Insertable)
    (hswept : g₀.SweptDegrees g₀.size swept g) {x : NodeId × Nat} (he : g₀.expr x.1 = .ok e)
    (hfits : Fits rank e) (terms : TermTable) :
    Completes (collectTarget g₀ rank swept terms x) g fun _ g' => g' = g := by
  obtain ⟨f, hread, hf⟩ := hswept.read (lt_size_of_expr he) he
  refine .after hread (.after (returns_lift.mpr ⟨he, rfl⟩) ?_)
  exact (targetTerms_completes hg hf hfits).bind fun m g₁ hg₁ _ hsame => completes_pure hg₁ hsame

/-- A target that does not fit stops the collection. -/
theorem collectTarget_throws (hswept : g₀.SweptDegrees g₀.size swept g) {x : NodeId × Nat}
    (he : g₀.expr x.1 = .ok e) (hfits : ¬Fits rank e) (terms : TermTable) :
    ∃ d, Throws (collectTarget g₀ rank swept terms x) g (.rankMismatch rank d e) := by
  obtain ⟨f, hread, hf⟩ := hswept.read (lt_size_of_expr he) he
  obtain ⟨d, hthrows⟩ := targetTerms_throws hf hfits
  exact ⟨d, .after hread (.after (returns_lift.mpr ⟨he, rfl⟩) hthrows.bind)⟩

/-- The terms of all targets are collected if every target fits, and otherwise this fails with a
mismatch of ranks. -/
theorem collectTargets_outcome (hg : g.Carries Insertable)
    (hswept : g₀.SweptDegrees g₀.size swept g) {items : List (NodeId × Nat)}
    (hitems : ∀ x ∈ items, x.1 < g₀.size) (terms : TermTable) :
    ((∀ x ∈ items, ∀ e, g₀.expr x.1 = .ok e → Fits rank e) →
      Completes (items.foldlM (collectTarget g₀ rank swept) terms) g fun _ g' => g' = g) ∧
    ((∃ x ∈ items, ∃ e, g₀.expr x.1 = .ok e ∧ ¬Fits rank e) →
      ∃ d e, Throws (items.foldlM (collectTarget g₀ rank swept) terms) g
        (.rankMismatch rank d e)) := by
  induction items generalizing terms with
  | nil =>
    refine ⟨fun _ => completes_pure hg rfl, ?_⟩
    rintro ⟨x, hx, -⟩
    cases hx
  | cons x items ih =>
    obtain ⟨e, he⟩ := exists_expr (hitems x List.mem_cons_self)
    have ih := ih fun y hy => hitems y (List.mem_cons_of_mem _ hy)
    rw [List.foldlM_cons]
    constructor
    · intro hfits
      have hx := hfits x List.mem_cons_self e he
      refine (collectTarget_completes hg hswept he hx terms).bind fun terms' g₁ _ _ hsame => ?_
      rw [hsame]
      exact (ih terms').1 fun y hy => hfits y (List.mem_cons_of_mem _ hy)
    · rintro ⟨y, hy, hbad⟩
      by_cases hx : Fits rank e
      · obtain ⟨terms', g₁, hr, hgrown⟩ := collectTarget_completes hg hswept he hx terms
        obtain rfl := hgrown.holds
        -- the target that does not fit is a later one
        have hlater : y ∈ items := by
          refine (List.mem_cons.mp hy).resolve_left ?_
          rintro rfl
          obtain ⟨e', he', hnot⟩ := hbad
          rw [Except.ok.inj (he'.symm.trans he)] at hnot
          exact hnot hx
        obtain ⟨d, e', hthrows⟩ := (ih terms').2 ⟨y, hlater, hbad⟩
        -- the first target does not fit
        exact ⟨d, e', .after hr hthrows⟩
      · obtain ⟨d, hthrows⟩ := collectTarget_throws hswept he hx terms
        exact ⟨d, e, hthrows.bind⟩

/-! ## The sweep -/

omit [Scalar R] in
/-- The empty graph, from which the sweep starts, holds nothing that cannot be inserted. -/
theorem carries_empty : ({} : ScalarGraph R).Carries Insertable where
  wellFormed := wellFormed_empty
  holds i e he := by simp [expr, node, Except.map] at he
  unread := unread_empty

omit [Scalar R] in
/-- Inserting the arguments succeeds. -/
theorem insertArguments_completes (hg : g.Carries Insertable)
    {arguments : List (ModifiedTerminal R)} (ha : ∀ m ∈ arguments, Insertable m.expr) :
    Completes (forIn arguments PUnit.unit fun m _ => do
      let _ ← insert m.expr
      pure (ForInStep.yield PUnit.unit)) g fun _ _ => True := by
  induction arguments generalizing g with
  | nil => exact completes_pure hg trivial
  | cons m arguments ih =>
    rw [List.forIn_cons]
    refine Completes.bind (S := fun step _ => step = .yield PUnit.unit) ?_ fun step g₁ hg₁ _ h => ?_
    -- each step of the loop inserts one argument
    · refine (insert_completes hg (ha m List.mem_cons_self)).bind fun i g₁ hg₁ _ _ => ?_
      exact completes_pure hg₁ rfl
    · rw [h]
      exact ih hg₁ fun m hm => ha m (List.mem_cons_of_mem _ hm)

theorem insertOne_completes (hg : g.Carries Insertable) :
    Completes (insert (Expr.real Scalar.one : Expr R)) g fun i g' => g'.NodeWith Insertable i := by
  have hone : Insertable (Expr.real Scalar.one : Expr R) :=
    insertable_of_isConstantValue (isConstantValue_literal _)
      (isScalar_iff.mpr (attributes_literal _))
  exact (insert_completes hg hone).imp fun i g' hi => ⟨_, hi, hone⟩

section

variable {arguments : List (ModifiedTerminal R)}

/-- The sweep fails at the first node without a degree. -/
theorem sweep_throws_node (h : g₀.Sweepable position?) (ha : ∀ m ∈ arguments, Insertable m.expr)
    {k : Nat} (he : g₀.expr k = .ok e) (hnone : e.degree = none) (hdegrees : g₀.DegreesBelow k) :
    Throws (g₀.sweep rank arguments position?) {} e.degreeError := by
  refine (insertArguments_completes carries_empty ha).throws fun _ g₁ hg₁ _ _ => ?_
  refine (insertOne_completes hg₁).throws fun one g₂ hg₂ _ hone => ?_
  exact (sweepNodes_throws h hg₂ hone he hnone hdegrees).bind

/-- If all nodes have degrees, all are swept. -/
theorem sweep_nodes (h : g₀.Sweepable position?) (hg : g.Carries Insertable)
    (hone : g.NodeWith Insertable one) (hdegrees : g₀.DegreesBelow g₀.size) :
    Completes (g₀.nodes.toList.zipIdx.foldlM
      (fun swept x => do return swept.push (← sweepNode position? one swept x.1 x.2)) #[]) g
      fun swept g' => g₀.SweptDegrees g₀.size swept g' := by
  have hall := sweepNodes_completes h hg hone (Nat.le_refl _) hdegrees
  rwa [List.take_of_length_le (by simp [size])] at hall

omit [Scalar R] in
/-- The numbered targets are nodes of the graph. -/
theorem lt_size_of_mem_targets (h : g₀.WellFormed) {x : NodeId × Nat}
    (hx : x ∈ g₀.targets.toList.zipIdx) : x.1 ∈ g₀.targets ∧ x.1 < g₀.size := by
  have hmem : x.1 ∈ g₀.targets := Array.mem_toList_iff.mp (List.fst_mem_of_mem_zipIdx hx)
  exact ⟨hmem, h.targets _ hmem⟩

/-- The sweep fails if a target does not fit. -/
theorem sweep_throws_target (h : g₀.Sweepable position?)
    (ha : ∀ m ∈ arguments, Insertable m.expr) (hdegrees : g₀.DegreesBelow g₀.size)
    {t : NodeId} (ht : t ∈ g₀.targets) (he : g₀.expr t = .ok e) (hfits : ¬Fits rank e) :
    ∃ d e, Throws (g₀.sweep rank arguments position?) {} (.rankMismatch rank d e) := by
  obtain ⟨u, g₁, hr₁, hgrown₁⟩ := insertArguments_completes carries_empty ha
  obtain ⟨one, g₂, hr₂, hgrown₂⟩ := insertOne_completes hgrown₁.carries
  obtain ⟨swept, g₃, hr₃, hgrown₃⟩ := sweep_nodes h hgrown₂.carries hgrown₂.holds hdegrees
  obtain ⟨c, hc⟩ := List.mem_iff_getElem?.mp (Array.mem_toList_iff.mpr ht)
  have hmem : (t, c) ∈ g₀.targets.toList.zipIdx := List.mk_mem_zipIdx_iff_getElem?.mpr hc
  obtain ⟨d, e', hthrows⟩ := (collectTargets_outcome hgrown₃.carries hgrown₃.holds
    (fun x hx => (lt_size_of_mem_targets h.wellFormed hx).2) ∅).2 ⟨(t, c), hmem, e, he, hfits⟩
  exact ⟨d, e', .after hr₁ (.after hr₂ (.after hr₃ hthrows.bind))⟩

/-- It ends without an error if all nodes have degrees, and all targets fit. -/
theorem exists_sweep (h : g₀.Sweepable position?) (ha : ∀ m ∈ arguments, Insertable m.expr)
    (hdegrees : g₀.DegreesBelow g₀.size)
    (hfits : ∀ t ∈ g₀.targets, ∀ e, g₀.expr t = .ok e → Fits rank e) :
    ∃ terms g', Returns (g₀.sweep rank arguments position?) {} terms g' := by
  refine (insertArguments_completes carries_empty ha).returns fun _ g₁ hg₁ _ => ?_
  refine (insertOne_completes hg₁).returns fun one g₂ hg₂ hone => ?_
  refine (sweep_nodes h hg₂ hone hdegrees).returns fun swept g₃ hg₃ hswept => ?_
  have hitems := fun x hx => lt_size_of_mem_targets h.wellFormed (x := x) hx
  refine ((collectTargets_outcome hg₃ hswept (fun x hx => (hitems x hx).2) ∅).1
    fun x hx => hfits _ (hitems x hx).1).returns fun terms g₄ _ _ => ?_
  exact ⟨terms, _, returns_bind.mpr
    ⟨PUnit.unit, _, returns_modify.mpr rfl, returns_pure.mpr ⟨rfl, rfl⟩⟩⟩

end

end ScalarGraph

end Sweep

/-! ## The factorization -/

namespace ScalarGraph

open WeakForm.Expr

variable [DecidableEq R] {g : ScalarGraph R}

/-- The leaves of a graph have descriptors. -/
theorem exists_leafTerminals (hg : g.WellFormed) (hi : g.Holds Insertable) :
    ∃ found, g.leafTerminals = .ok found := by
  refine exists_mapM_of_forall fun x hx => ?_
  obtain ⟨hmem, hleaf⟩ := List.mem_filter.mp hx
  have hn : g.nodes[x.2]? = some x.1 := by
    rw [← Array.getElem?_toList]
    exact List.mk_mem_zipIdx_iff_getElem?.mp hmem
  have hdescribed : ∃ m, leafTerminal x.1 = .ok m := by
    unfold leafTerminal
    split
    · exact ⟨_, rfl⟩
    -- a leaf that can be inserted has a descriptor
    · obtain ⟨m, hm⟩ := exists_descriptor (hi x.2 _ (expr_eq_ok.mpr ⟨x.1, hn, rfl⟩))
        ((hg.nodes _ _ hn).operandsOf_leaf hleaf)
      exact ⟨m, bind_eq_ok.mpr ⟨some m, hm, rfl⟩⟩
  obtain ⟨m, hm⟩ := hdescribed
  exact ⟨(x.2, m), bind_eq_ok.mpr ⟨m, hm, rfl⟩⟩

variable [Scalar R]

/-- A factorization is a sweep, with the positions of the nodes that are arguments. -/
theorem exists_factorize_eq (hg : g.WellFormed) (hi : g.Holds Insertable) :
    ∃ (arguments : List (ModifiedTerminal R)) (position? : NodeId → Option Nat),
      (∀ m ∈ arguments, Insertable m.expr) ∧ g.PositionsOf position? ∧
        ∀ rank, g.factorize rank =
          match (g.sweep rank arguments position?).run.run {} with
          | (.ok terms, graph) => .ok { graph, arguments, terms, size := g.targets.size }
          | (.error err, _) => .error err := by
  -- the argument leaves, sorted, are what both the vector and the positions come from
  obtain ⟨found, hfound⟩ := exists_leafTerminals hg hi
  obtain ⟨leaves, hleaves⟩ : ∃ leaves, sortArguments (found.filter (·.2.isArgument)) = leaves :=
    ⟨_, rfl⟩
  have hleaf : ∀ l ∈ leaves, g.IsLeaf l.1 l.2 ∧ l.2.isArgument := by
    intro l hl
    rw [← hleaves] at hl
    exact (mem_argumentLeaves hg hfound).mp hl
  refine ⟨distinct (leaves.map (·.2)), fun i => (Std.HashMap.ofList (leaves.filterMap fun l =>
    (argumentPosition? (distinct (leaves.map (·.2))) l.2).map (l.1, ·)))[i]?, fun m hm => ?_,
    fun i n hn => ⟨fun h => ?_, fun h => ?_⟩, fun rank => ?_⟩
  · -- what stands in the argument vector is held by a leaf
    obtain ⟨l, hl, rfl⟩ := List.mem_map.mp ((distinct_spec _).2 m hm)
    obtain ⟨⟨n, hn, -, hd⟩, -⟩ := hleaf l hl
    rw [hd.expr]
    exact hi l.1 _ (expr_eq_ok.mpr ⟨n, hn, rfl⟩)
  -- a node with a position is one of the argument leaves
  · obtain ⟨p, hp⟩ := Option.isSome_iff_exists.mp h
    obtain ⟨l, hl, heq⟩ := List.mem_filterMap.mp (mem_of_getElem?_ofList hp)
    obtain ⟨p', -, heq⟩ := Option.map_eq_some_iff.mp heq
    cases heq
    obtain ⟨⟨n', hn', -, hd⟩, harg⟩ := hleaf l hl
    rw [hn] at hn'
    cases hn'
    rw [hd.isArgument, harg]
  -- and an argument leaf has a position, since its descriptor stands in the vector
  · obtain ⟨m, hd, hm⟩ := exists_describes h
    have hmem : (i, m) ∈ leaves := by
      rw [← hleaves]
      exact (mem_argumentLeaves hg hfound).mpr ⟨isLeaf_of_describes hg hn hd, hm⟩
    exact Option.isSome_iff_exists.mpr (exists_position rfl hmem)
  · rw [factorize, hfound, ← hleaves]
    rfl

/-- Every node has a degree, and the targets are those of a form of the rank. -/
structure Homogeneous (g : ScalarGraph R) (rank : Nat) : Prop where
  nodes : ∀ i e, g.expr i = .ok e → e.degree.isSome
  targets : ∀ t ∈ g.targets, ∀ e, g.expr t = .ok e → Fits rank e

/-- The first node without a degree fails the factorization, with the error of its operator. -/
theorem factorize_throws (hg : g.WellFormed) (hc : g.Holds Canonical) (hi : g.Holds Insertable)
    {rank : Nat} {i : NodeId} {e : Expr R} (he : g.expr i = .ok e) (hnone : e.degree = none)
    (hbelow : g.DegreesBelow i) : g.factorize rank = .error e.degreeError := by
  obtain ⟨arguments, position?, ha, hpos, hfactorize⟩ := exists_factorize_eq hg hi
  have hthrows : Throws (g.sweep rank arguments position?) {} e.degreeError :=
    sweep_throws_node ⟨hg, hc, hi, hpos⟩ ha he hnone hbelow
  obtain ⟨g', hr⟩ := hthrows
  rw [hfactorize, hr]

omit [Scalar R] in
/-- Every node has a degree, or there is a first one without. -/
theorem degrees_or_first (g : ScalarGraph R) :
    (∀ k, g.DegreesBelow k) ∨ ∃ i e, g.expr i = .ok e ∧ e.degree = none ∧ g.DegreesBelow i := by
  by_cases hall : ∀ k, g.DegreesBelow k
  · exact .inl hall
  refine .inr ?_
  -- otherwise the first node without a degree is the one asked for
  by_contra hnone
  refine hall fun k => ?_
  induction k with
  | zero => exact fun i hi => absurd hi (Nat.not_lt_zero i)
  | succ k ih =>
    intro i hlt e he
    -- either an earlier node, or the next one
    rcases Nat.lt_succ_iff_lt_or_eq.mp hlt with hlt | rfl
    · exact ih i hlt e he
    · cases hd : e.degree with
      | some d => rfl
      | none => exact absurd ⟨i, e, he, hd, ih⟩ hnone

/-- **The outcome of a factorization**: factors, or an error of degrees. -/
theorem factorize_outcome (hg : g.WellFormed) (hc : g.Holds Canonical) (hi : g.Holds Insertable)
    (rank : Nat) : (g.Homogeneous rank ∧ ∃ F, g.factorize rank = .ok F) ∨
      ¬g.Homogeneous rank ∧ ∃ err, g.factorize rank = .error err ∧ err.OfDegrees := by
  rcases degrees_or_first g with hbelow | ⟨i, e, he, hnone, hbelow⟩
  · obtain ⟨arguments, position?, ha, hpos, hfactorize⟩ := exists_factorize_eq hg hi
    have hsweepable : g.Sweepable position? := ⟨hg, hc, hi, hpos⟩
    by_cases hfits : ∀ t ∈ g.targets, ∀ e, g.expr t = .ok e → Fits rank e
    · obtain ⟨terms, g', hr⟩ := exists_sweep hsweepable ha (hbelow g.size) hfits
      -- all degrees and all targets are right
      refine .inl ⟨⟨fun i e he => ?_, hfits⟩, _, by rw [hfactorize, hr]⟩
      exact hbelow (i + 1) i (Nat.lt_succ_self i) e he
    · -- a target does not fit
      refine .inr ⟨fun h => hfits h.targets, ?_⟩
      push Not at hfits
      obtain ⟨t, ht, e, he, hmisfit⟩ := hfits
      obtain ⟨d, e', g', hr⟩ := sweep_throws_target hsweepable ha (hbelow g.size) ht he hmisfit
      exact ⟨_, by rw [hfactorize, hr], .rankMismatch _ _ _⟩
  -- a node has no degree
  · refine .inr ⟨fun h => ?_, _, factorize_throws hg hc hi he hnone hbelow, degreeError_ofDegrees e⟩
    have hsome := h.nodes i e he
    rw [hnone] at hsome
    cases hsome

/-- **A graph that is factorized** has degrees, and targets of the rank. -/
theorem homogeneous_of_factorize (hg : g.WellFormed) (hc : g.Holds Canonical)
    (hi : g.Holds Insertable) {rank : Nat} {F : Factorization R}
    (hF : g.factorize rank = .ok F) : g.Homogeneous rank := by
  rcases factorize_outcome hg hc hi rank with ⟨h, -⟩ | ⟨-, err, herr, -⟩
  · exact h
  · rw [hF] at herr
    cases herr

/-- No part of a divisor is an argument. -/
theorem Homogeneous.divisor_argumentFree {rank : Nat} (h : g.Homogeneous rank) {i : NodeId}
    {a b x : Expr R} (he : g.expr i = .ok (binary .division a b)) (hx : Part x b) :
    ¬x.isArgument := by
  intro harg
  obtain ⟨d, hd⟩ := Option.isSome_iff_exists.mp (h.nodes i _ he)
  have hzero := degree_part (BinaryOp.divisor_degree hd) hx
  rw [degree_argument harg] at hzero
  cases hzero

/-- **What is factorized.** The graph of built expressions is factorized for a form of a rank
exactly if every node has a degree and every target has that of the form, or is zero. If a node
has no degree and all nodes before it have one, the factorization fails with the error of its
operator. -/
theorem factorize_homogeneous {es : List (Expr R)} (hb : ∀ e ∈ es, Built e)
    (h : ofTargets es = .ok g) (rank : Nat) :
    ((∃ F, g.factorize rank = .ok F) ↔ g.Homogeneous rank) ∧
      ∀ i e, g.expr i = .ok e → e.degree = none →
        (∀ j < i, ∀ e', g.expr j = .ok e' → e'.degree.isSome) →
          g.factorize rank = .error e.degreeError := by
  have hg := ofTargets_wellFormed h
  have hc := ofTargets_canonical hb h
  have hi := ofTargets_holds_insertable hb h
  refine ⟨⟨fun ⟨F, hF⟩ => homogeneous_of_factorize hg hc hi hF, fun hhom => ?_⟩,
    fun i e he hnone hbelow => factorize_throws hg hc hi he hnone hbelow⟩
  rcases factorize_outcome hg hc hi rank with ⟨-, hF⟩ | ⟨hnot, -⟩
  · exact hF
  · exact absurd hhom hnot

end ScalarGraph

/-! ### A test function, and one more than it -/

namespace SingleTest

open ScalarGraph WeakForm.Expr

/-- One. -/
def one : Expr ℚ :=
  .leaf (.literal (.real 1))

/-- One more than the test function. -/
def affine : Expr ℚ :=
  .binary .sum test one

theorem built_test : Built test :=
  .argument _

theorem built_affine : Built affine := by
  have hone : Expr.literal (.real 1) = one := by cbv
  have happly : BinaryOp.sum.apply test one = .ok affine := by cbv
  exact .binary built_test (hone ▸ .literal _) happly

theorem degree_test : test.degree = some 1 := by
  cbv

theorem degree_one : one.degree = some 0 := by
  cbv

theorem degree_affine : affine.degree = none := by
  rw [affine, degree, degree_test, degree_one]
  rfl

/-- The parts of the sum, of which only the sum has no degree. -/
theorem part_affine {a : Expr ℚ} (h : Part a affine) : a = affine ∨ a.degree.isSome := by
  cases h with
  | refl => exact .inl rfl
  | operand hb h =>
    rcases List.mem_pair.mp hb with rfl | rfl
    · cases h with
      | refl => exact .inr (by rw [degree_test]; rfl)
      | operand hb => cases hb
    · cases h with
      | refl => exact .inr (by rw [degree_one]; rfl)
      | operand hb => cases hb

end SingleTest

theorem ScaledTest.built_form : Expr.Built ScaledTest.form := by
  have hvolume : Expr.Built ScaledTest.volume := .geometry _
  have hscaled : BinaryOp.product.apply ScaledTest.volume SingleTest.test =
      .ok ScaledTest.scaled := by cbv
  have hdensity : BinaryOp.division.apply SingleTest.test ScaledTest.volume =
      .ok ScaledTest.density := by cbv
  have hform : BinaryOp.sum.apply ScaledTest.scaled ScaledTest.density =
      .ok ScaledTest.form := by cbv
  exact .binary (.binary hvolume SingleTest.built_test hscaled)
    (.binary SingleTest.built_test hvolume hdensity) hform

/-- A test function is factorized for forms with one argument, not for forms with two. One more
than it is not factorized at all: the sum has terms of different degrees. -/
theorem ScalarGraph.factorize_homogeneous_affine :
    (∃ F, SingleTest.graph.factorize 1 = .ok F) ∧ (∀ F, SingleTest.graph.factorize 2 ≠ .ok F) ∧
      ∃ g, ofTargets [SingleTest.affine] = .ok g ∧
        g.factorize 1 = .error (.mixedRank 1 0 SingleTest.affine) := by
  -- the graph of the test function alone, factorized with rank one and with rank two
  have hb : ∀ e ∈ [SingleTest.test], Expr.Built e := fun e he =>
    List.mem_singleton.mp he ▸ SingleTest.built_test
  have hiff := fun rank => (factorize_homogeneous hb SingleTest.ofTargets_test rank).1
  refine ⟨(hiff 1).mpr ⟨fun i e he => ?_, fun t _ e he => .inl ?_⟩, fun F hF => ?_, ?_⟩
  · rw [SingleTest.expr_graph he, SingleTest.degree_test]
    rfl
  · rw [SingleTest.expr_graph he, SingleTest.degree_test]
  · have htarget := ((hiff 2).mp ⟨F, hF⟩).targets 0 (by simp [SingleTest.graph, pushTarget])
      SingleTest.test rfl
    rcases htarget with h | h
    · rw [SingleTest.degree_test] at h
      cases h
    · cases h
  -- the affine form mixes degrees, which its sum reports
  · have hb : ∀ e ∈ [SingleTest.affine], Expr.Built e := fun e he =>
      List.mem_singleton.mp he ▸ SingleTest.built_affine
    have hi : ∀ e ∈ [SingleTest.affine], Expr.Insertable e := fun e he =>
      List.mem_singleton.mp he ▸ .binary (Expr.insertable_leaf (by cbv))
        (Expr.insertable_leaf (by cbv))
    obtain ⟨g, hg, htargets, hparts⟩ := ofTargets_insertable (fun e he => (hb e he).canonical) hi
    obtain ⟨t, ht⟩ : ∃ t, g.expr t = .ok SingleTest.affine := by
      obtain ⟨t, -, ht⟩ := exists_left_of_mem htargets List.mem_cons_self
      exact ⟨t, ht⟩
    have herror := (factorize_homogeneous hb hg 1).2 t _ ht SingleTest.degree_affine ?_
    · refine ⟨g, hg, herror.trans ?_⟩
      rw [SingleTest.affine, Expr.degreeError, SingleTest.degree_test, SingleTest.degree_one]
      rfl
    -- every node before the sum has a degree
    · intro j hj e he
      obtain ⟨_, hmem, hpart⟩ := hparts j e he
      rw [List.mem_singleton.mp hmem] at hpart
      refine (SingleTest.part_affine hpart).resolve_left ?_
      rintro rfl
      -- the sum is held by one node
      exact absurd ((ofTargets_wellFormed hg).expr_inj he ht) (Nat.ne_of_lt hj)

end WeakForm
