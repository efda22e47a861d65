import WeakForm.Proofs.Canonical
import WeakForm.Proofs.Insertion
import WeakForm.Proofs.Rewriting
import WeakForm.Proofs.ComponentPlaces

/-!
# Graphs of given targets

The targets of a graph are scalarized and inserted one after the other, and each of them
adds the parts that are new. So what holds of all scalar components, and passes from an
expression to its operands, holds of every node.

In the other direction, an expression over terminals with descriptors can always be
inserted, and where it is canonical, scalarization gives it back: the graph of such
expressions is built without a failure and has them as its targets, in order.

* `scalarize_closed`, `ofTargets_closed` — a closed property of expressions holds of their
  components, and of what their graph holds; so these are canonical (`scalarize_canonical`,
  `ofTargets_canonical`);
* `ScalarGraph.Part`, `ofTargets_keeps` — parts, and what the nodes of a graph inherit;
* `Expr.Insertable`, `insert_insertable` — expressions that a graph takes;
* `ofTargets_insertable` — the graph of canonical insertable expressions.
-/

namespace WeakForm

variable {R : Type}

/-! ## Components -/

namespace Expr

section Components

variable [Scalar R]

variable {Q : Expr R → Prop} {a b e : Expr R} {as bs rs : Array (Expr R)}

/-- Fixing free indices builds no expression outside a closed class. -/
theorem fix_closed [DecidableEq R] {r : Expr R} {ids : List IndexId} {positions : List Nat}
    (hQ : Closed Q) (he : Q e) (h : e.fix ids positions = .ok r) : Q r := by
  unfold fix at h
  split at h
  · exact hQ.substitute he h
  · cases h

omit [Scalar R] in
theorem mem_of_scalarAt {k : Nat} {s : Expr R} (h : scalarAt as k = .ok s) : s ∈ as :=
  Array.mem_of_getElem? (scalarAt_eq_ok.mp h)

omit [Scalar R] in
/-- An entry of a list that is made place by place. -/
theorem exists_place_of_mem {α : Type} {places : List α} {entry : α → Result R (Expr R)}
    (h : (do return (← places.mapM entry).toArray) = Except.ok as) {s : Expr R} (hs : s ∈ as) :
    ∃ place, entry place = .ok s := by
  obtain ⟨scalars, hscalars, h⟩ := bind_eq_ok.mp h
  cases h
  obtain ⟨place, -, hentry⟩ := mem_of_mapM hscalars (List.mem_toArray.mp hs)
  exact ⟨place, hentry⟩

/-- The components of a terminal stay in a closed class. -/
theorem terminalScalars_closed [DecidableEq R] (hQ : Closed Q) (he : Q e)
    (h : terminalScalars e = .ok as) : ∀ s ∈ as, Q s := by
  intro s hs
  unfold terminalScalars at h
  split at h
  · cases h
    rw [Array.eq_of_mem_replicate hs]
    exact hQ.zero (if_pos FreeIndices.sorted_nil)
  · obtain ⟨fixed, hfixed, h⟩ := bind_eq_ok.mp h
    obtain ⟨scalars, hscalars, h⟩ := bind_eq_ok.mp h
    cases h
    -- each scalar is a component, with the free indices fixed
    obtain ⟨rows, hrows, rfl⟩ := flatMapM_eq_ok.mp hscalars
    obtain ⟨row, hrow, hs⟩ := List.mem_flatten.mp (List.mem_toArray.mp hs)
    obtain ⟨c, -, hc⟩ := mem_of_mapM hrows hrow
    obtain ⟨a, ha, hentry⟩ := mem_of_mapM hc hs
    obtain ⟨positions, -, hfix⟩ := mem_of_mapM hfixed ha
    obtain ⟨r, hindex, hentry⟩ := bind_eq_ok.mp hentry
    obtain ⟨found, -, hentry⟩ := bind_eq_ok.mp hentry
    cases found with
    | none => cases hentry
    | some m =>
      cases hentry
      have hindex : (UnaryOp.indexed (c.map .fixed)).apply _ = .ok _ := lift_eq_ok.mp hindex
      exact hQ.unary (fix_closed hQ he (lift_eq_ok.mp hfix)) hindex

/-- A sum that is added up term by term. -/
theorem foldlM_add_closed (hQ : Closed Q) {term : Nat → Result R (Expr R)} {js : List Nat}
    (hterm : ∀ j s, term j = .ok s → Q s) {first r : Expr R} (hfirst : Q first)
    (h : js.foldlM (fun sum j => do (sum.add (← term j) : Checked R _)) first = .ok r) : Q r := by
  induction js generalizing first with
  | nil =>
    cases h
    exact hfirst
  | cons j js ih =>
    obtain ⟨sum, hsum, h⟩ := bind_eq_ok.mp h
    obtain ⟨s, hs, hsum⟩ := bind_eq_ok.mp hsum
    have hsum : BinaryOp.sum.apply _ s = .ok sum := lift_eq_ok.mp hsum
    exact ih (hQ.binary hfirst (hterm j s hs) hsum) h

/-- The components of a product stay in a closed class. -/
theorem productScalars_closed (hQ : Closed Q) (ha : ∀ s ∈ as, Q s) (hb : ∀ s ∈ bs, Q s)
    (h : productScalars a b as bs = .ok rs) : ∀ s ∈ rs, Q s := by
  intro s hs
  dsimp only [productScalars] at h
  -- each component of the product multiplies a scalar of either operand
  obtain ⟨place, he⟩ := exists_place_of_mem h hs
  obtain ⟨x, hx, he⟩ := bind_eq_ok.mp he
  obtain ⟨y, hy, he⟩ := bind_eq_ok.mp he
  have hx := ha x (mem_of_scalarAt hx)
  have hy := hb y (mem_of_scalarAt hy)
  have he : BinaryOp.product.apply x y = .ok _ := lift_eq_ok.mp he
  exact hQ.binary hx hy he

/-- The components of an index sum stay in a closed class. -/
theorem sumScalars_closed {i : IndexId} (hQ : Closed Q) (ha : ∀ s ∈ as, Q s)
    (h : sumScalars i a as = .ok rs) : ∀ s ∈ rs, Q s := by
  intro s hs
  dsimp only [sumScalars] at h
  split at h
  · obtain ⟨place, he⟩ := exists_place_of_mem h hs
    obtain ⟨first, hfirst, he⟩ := bind_eq_ok.mp he
    exact foldlM_add_closed hQ (fun j s hs => ha s (mem_of_scalarAt hs))
      (ha first (mem_of_scalarAt hfirst)) he
  · cases h

omit [Scalar R] in
theorem indexedScalars_closed {is : List Index} (ha : ∀ s ∈ as, Q s)
    (h : indexedScalars is a as = .ok rs) : ∀ s ∈ rs, Q s := by
  intro s hs
  obtain ⟨axes, -, h⟩ := bind_eq_ok.mp h
  obtain ⟨indices, -, h⟩ := bind_eq_ok.mp h
  obtain ⟨positions, he⟩ := exists_place_of_mem h hs
  exact ha s (mem_of_scalarAt he)

/-- Component-wise operators stay in a closed class. -/
theorem zipScalars_closed [DecidableEq R] {op : BinaryOp} (hQ : Closed Q) (ha : ∀ s ∈ as, Q s)
    (hb : ∀ s ∈ bs, Q s) (h : zipScalars op as bs = .ok rs) : ∀ s ∈ rs, Q s := by
  intro s hs
  obtain ⟨-, -, -, hentry⟩ := zipScalars_ok h
  obtain ⟨k, hk, hks⟩ := Array.mem_iff_getElem.mp hs
  obtain ⟨x, y, r, hx, hy, happly, hr⟩ := hentry k hk
  rw [Array.getElem?_eq_getElem hk, hks] at hr
  cases hr
  exact hQ.binary (ha x (Array.mem_of_getElem? hx)) (hb y (Array.mem_of_getElem? hy)) happly

theorem eachScalar_closed {op : UnaryOp} (hQ : Closed Q) (ha : ∀ s ∈ as, Q s)
    (h : eachScalar op as = .ok rs) : ∀ s ∈ rs, Q s := by
  intro s hs
  rw [eachScalar, Array.mapM_eq_mapM_toList] at h
  obtain ⟨results, hresults, rfl⟩ := map_eq_ok.mp h
  obtain ⟨x, hx, happly⟩ := mem_of_mapM hresults (List.mem_toArray.mp hs)
  exact hQ.unary (ha x (Array.mem_toList_iff.mp hx)) (lift_eq_ok.mp happly)

/-- **A closed property holds of the components of an expression that has it.** -/
theorem scalarize_closed [DecidableEq R] (hQ : Closed Q) (he : Q e) (h : scalarize e = .ok as) :
    ∀ s ∈ as, Q s := by
  induction e generalizing as with
  | leaf t =>
    rw [scalarize.eq_def, isModifiedTerminal, if_pos rfl] at h
    exact terminalScalars_closed hQ he h
  -- a list tensor that is not indexed cannot be scalarized
  | listTensor =>
    rw [scalarize.eq_def, isModifiedTerminal, if_neg Bool.false_ne_true] at h
    cases h
  | unary op a ih =>
    have ha' := hQ.operand he List.mem_cons_self
    -- a terminal beneath modifiers
    by_cases hm : (unary op a).isModifiedTerminal
    · rw [scalarize.eq_def, if_pos hm] at h
      exact terminalScalars_closed hQ he h
    · -- an operator on components
      rw [scalarize.eq_def, if_neg hm] at h
      cases op with
      | math f =>
        -- the two functions act on each scalar
        obtain ⟨as', ha, h⟩ := bind_eq_ok.mp h
        exact eachScalar_closed hQ (ih ha' ha) h
      | abs =>
        obtain ⟨as', ha, h⟩ := bind_eq_ok.mp h
        exact eachScalar_closed hQ (ih ha' ha) h
      | indexSum i =>
        obtain ⟨as', ha, h⟩ := bind_eq_ok.mp h
        exact sumScalars_closed hQ (ih ha' ha) h
      | indexed is =>
        obtain ⟨as', ha, h⟩ := bind_eq_ok.mp h
        exact indexedScalars_closed (ih ha' ha) h
      -- modifiers belong to terminals, and these are not scalarized
      | componentTensor | restricted | grad | referenceGrad | spatialDerivative | averaged
        | labelled => cases h
  | binary op a b iha ihb =>
    have ha' := hQ.operand he List.mem_cons_self
    have hb' := hQ.operand he (List.mem_cons_of_mem _ List.mem_cons_self)
    rw [scalarize.eq_def, isModifiedTerminal, if_neg Bool.false_ne_true] at h
    cases op with
    | product =>
      obtain ⟨as', ha, h⟩ := bind_eq_ok.mp h
      obtain ⟨bs', hb, h⟩ := bind_eq_ok.mp h
      exact productScalars_closed hQ (iha ha' ha) (ihb hb' hb) h
    | sum | division | power =>
      obtain ⟨as', ha, h⟩ := bind_eq_ok.mp h
      obtain ⟨bs', hb, h⟩ := bind_eq_ok.mp h
      exact zipScalars_closed hQ (iha ha' ha) (ihb hb' hb) h

/-- **The components of canonical expressions are canonical.** -/
theorem scalarize_canonical [DecidableEq R] (hc : Canonical e) (h : scalarize e = .ok as) :
    ∀ s ∈ as, Canonical s :=
  scalarize_closed canonical_closed hc h

end Components

end Expr

/-! ## What the nodes of a graph inherit -/

namespace ScalarGraph

open Building WeakForm.Expr

variable [DecidableEq R] {g g' : ScalarGraph R}

/-- A property of expressions holds of all nodes. -/
def Holds (g : ScalarGraph R) (P : Expr R → Prop) : Prop :=
  ∀ (i : NodeId) (e : Expr R), g.expr i = .ok e → P e

variable {P : Expr R → Prop}

/-- A pushed node holds its expression, so the property of all held expressions is kept. -/
theorem Holds.push (hg : g.Holds P) {e : Expr R} (he : P e) (operands : List NodeId) :
    (g.push e operands).Holds P := by
  intro i e' h
  rcases expr_push h with h | ⟨-, rfl⟩
  · exact hg i e' h
  · exact he

/-- An insertion puts nodes on top of a graph, one after the other, for the expression and its
parts. -/
theorem insert_induct {T : ScalarGraph R → Prop} (hP : ∀ e, P e → ∀ a ∈ operandsOf e, P a)
    (hT : ∀ g e operands, T g → P e → T (g.push e operands)) {e : Expr R} {i : NodeId}
    (hg : T g) (he : P e) (h : Returns (insert e) g i g') : T g' := by
  -- either the expression was in the graph already, or its operands are inserted and then its own
  -- node
  induction e generalizing g g' i with
  | leaf t =>
    cases insert_run h with
    | found hi => exact hg
    | terminal => exact hT g _ _ hg he
  | unary op a ih =>
    cases insert_run h with
    | found hi => exact hg
    | unary hop hnew hs ha =>
      -- an operand of an expression in the class is in the class
      have ha' : P a := hP _ he a (by rw [hop]; exact List.mem_singleton.mpr rfl)
      exact hT _ _ _ (ih hg ha' ha) he
    | terminal => exact hT g _ _ hg he
  | binary op a b iha ihb =>
    cases insert_run h with
    | found hi => exact hg
    | binary hnew hs ha hb =>
      have hmem := hP _ he
      have ha' : P a := hmem a List.mem_cons_self
      have hb' : P b := hmem b (List.mem_cons_of_mem _ List.mem_cons_self)
      exact hT _ _ _ (ihb (iha hg ha' ha) hb' hb) he
    | terminal => exact hT g _ _ hg he
  | listTensor items _ =>
    cases insert_run h with
    | found hi => exact hg
    | terminal => exact hT g _ _ hg he

/-- What passes from an expression to its operands, an insertion keeps. -/
theorem insert_keeps (hP : ∀ e, P e → ∀ a ∈ operandsOf e, P a) {e : Expr R} {i : NodeId}
    (hg : g.Holds P) (he : P e) (h : Returns (insert e) g i g') : g'.Holds P :=
  insert_induct (T := (·.Holds P)) hP (fun _ _ operands hg he => hg.push he operands) hg he h

/-- What holds of all scalar components, and passes from an expression to its operands,
holds of every node. -/
theorem ofTargets_keeps [Scalar R] (hP : ∀ e, P e → ∀ a ∈ operandsOf e, P a) {es : List (Expr R)}
    (hs : ∀ e ∈ es, ∀ as, scalarize e = .ok as → ∀ s ∈ as, P s) (h : ofTargets es = .ok g) :
    g.Holds P := by
  obtain ⟨components, hall, hr⟩ := ofTargets_eq_ok.mp h
  refine forM_keeps (P := (Holds · P)) (fun s hmem g₁ g₂ u hg₁ hr => ?_) hr fun i e he => ?_
  · obtain ⟨i, g₃, hi, hpush⟩ := returns_bind.mp hr
    obtain rfl := returns_modify.mp hpush
    obtain ⟨as, has, hsa⟩ := List.mem_flatMap.mp hmem
    obtain ⟨e, he, has⟩ := exists_left_of_mem hall has
    -- a target more changes no node
    show g₃.Holds P
    exact insert_keeps hP hg₁ (hs e he as has s (Array.mem_toList_iff.mp hsa)) hi
  · simp [expr, node, Except.map] at he

omit [DecidableEq R] in
/-- The operands that an expression has in a graph are operands of it. -/
theorem mem_operands {e a : Expr R} (h : a ∈ operandsOf e) : a ∈ e.operands := by
  -- neither leaves nor lists have operands here
  cases e with
  | leaf | listTensor => cases h
  | unary op b =>
    cases op with
    | math | abs => exact h
    | indexSum | indexed | componentTensor | restricted | grad | referenceGrad
      | spatialDerivative | averaged | labelled => cases h
  | binary => exact h

/-- The graph of expressions with a closed property holds no others. -/
theorem ofTargets_closed [Scalar R] (hP : Closed P) {es : List (Expr R)} (hes : ∀ e ∈ es, P e)
    (h : ofTargets es = .ok g) : g.Holds P :=
  ofTargets_keeps (fun _ he _ ha => hP.operand he (mem_operands ha))
    (fun e he _ hs => scalarize_closed hP (hes e he) hs) h

/-- An expression and what it is made of, as a graph sees it. -/
inductive Part (a : Expr R) : Expr R → Prop
  | refl : Part a a
  | operand {b e : Expr R} (hb : b ∈ operandsOf e) (h : Part a b) : Part a e

omit [DecidableEq R] in
/-- Being a part is transitive. -/
theorem Part.trans {a b e : Expr R} (h : Part a b) (h' : Part b e) : Part a e := by
  induction h' with
  | refl => exact h
  | operand hb _ ih => exact .operand hb ih

/-- The parts of what a node holds are held by nodes before it. -/
theorem WellFormed.exists_part (hg : g.WellFormed) {a e : Expr R} (h : Part a e) {i : NodeId}
    (he : g.expr i = .ok e) : ∃ j, g.expr j = .ok a := by
  induction h generalizing i with
  | refl => exact ⟨i, he⟩
  | operand hb _ ih =>
    obtain ⟨n, hn, rfl⟩ := expr_eq_ok.mp he
    obtain ⟨j, -, -, hj⟩ := exists_left_of_mem (hg.nodes i n hn).operands hb
    exact ih hj

/-- **The graph of built expressions holds canonical expressions.** -/
theorem ofTargets_canonical [Scalar R] {es : List (Expr R)} (hb : ∀ e ∈ es, Built e)
    (h : ofTargets es = .ok g) : g.Holds Canonical :=
  ofTargets_closed canonical_closed (fun e he => (hb e he).canonical) h

end ScalarGraph

/-! ## Expressions that a graph takes -/

namespace Expr

open ScalarGraph Building

/-- Algebra and elementary functions of terminals with descriptors. -/
inductive Insertable : Expr R → Prop
  | terminal {e : Expr R} {m : ModifiedTerminal R} (ht : e.isModifiedTerminal)
      (hd : e.analyse = .ok (some m)) : Insertable e
  | unary {op : UnaryOp} {a : Expr R} (hop : operandsOf (unary op a) = [a])
      (ha : Insertable a) : Insertable (unary op a)
  | binary {op : BinaryOp} {a b : Expr R} (ha : Insertable a) (hb : Insertable b) :
      Insertable (binary op a b)

/-- Where a node of the graph has an operand, its operator is a function. -/
theorem eq_math_or_abs {op : UnaryOp} {a : Expr R} (h : operandsOf (unary op a) = [a]) :
    (∃ f, op = .math f) ∨ op = .abs := by
  cases op with
  | math f => exact .inl ⟨f, rfl⟩
  | abs => exact .inr rfl
  | indexSum | indexed | componentTensor | restricted | grad | referenceGrad
    | spatialDerivative | averaged | labelled => cases h

/-- A function of a scalar is scalar. -/
theorem isScalar_apply [Scalar R] {op : UnaryOp} {a r : Expr R}
    (hop : operandsOf (unary op a) = [a]) (ha : a.isScalar) (h : op.apply a = .ok r) :
    r.isScalar := by
  obtain ⟨hshape, hfree⟩ := attributes_unary h
  obtain ⟨hsa, hfa⟩ := isScalar_iff.mp ha
  rcases eq_math_or_abs hop with ⟨f, rfl⟩ | rfl
  · exact isScalar_iff.mpr ⟨hshape, hfree.trans hfa⟩
  · exact isScalar_iff.mpr ⟨hshape.trans hsa, hfree.trans hfa⟩

/-- A scalar terminal without modifiers analyses to a descriptor. -/
theorem exists_analyse_leaf {t : Terminal R} (hs : (leaf t).isScalar) :
    ∃ m, (leaf t).analyse = .ok (some m) := by
  have hshape : t.shape = [] := (shape_leaf t).symm.trans (isScalar_iff.mp hs).1
  have hdescribe : ∃ m, (leaf t).describe = .ok (some m) := by
    simp [describe, hs, peel, hshape, bind, Except.bind, pure, Except.pure]
  exact hdescribe.imp fun m hm => by rw [analyse, hm]

theorem insertable_leaf {t : Terminal R} (hs : (leaf t).isScalar) : Insertable (leaf t) :=
  (exists_analyse_leaf hs).elim fun _ hm => .terminal rfl hm

theorem insertable_of_isConstantValue {e : Expr R} (h : e.isConstantValue) (hs : e.isScalar) :
    Insertable e := by
  obtain ⟨t, rfl⟩ := leaf_of_isConstantValue h
  exact insertable_leaf hs

/-- What can be inserted is scalar. -/
theorem Insertable.isScalar {e : Expr R} (h : Insertable e) : e.isScalar := by
  induction h with
  | terminal ht hd => exact isScalar_of_analyse hd
  | @unary op a hop ha ih =>
    rw [isScalar_iff] at ih ⊢
    rw [shape_unary, free_unary]
    -- both functions keep the free indices and give a scalar
    rcases eq_math_or_abs hop with ⟨f, rfl⟩ | rfl
    · exact ⟨rfl, ih.2⟩
    · exact ih
  | @binary op a b ha hb iha ihb => exact isScalar_binary op iha ihb

/-- A function of what a graph takes is something that a graph takes. -/
theorem Insertable.apply [Scalar R] {op : UnaryOp} {a r : Expr R}
    (hop : operandsOf (Expr.unary op a) = [a]) (ha : Insertable a) (h : op.apply a = .ok r) :
    Insertable r := by
  have hs := isScalar_apply hop ha.isScalar h
  rcases unary_outcome h with rfl | hconst | rfl
  · exact ha
  · exact insertable_of_isConstantValue hconst hs
  · exact .unary hop ha

theorem Insertable.apply₂ [Scalar R] {op : BinaryOp} {a b r : Expr R} (ha : Insertable a)
    (hb : Insertable b) (h : op.apply a b = .ok r) : Insertable r := by
  have hs := isScalar_apply₂ ha.isScalar hb.isScalar h
  rcases binary_outcome h with rfl | rfl | hconst | rfl
  · exact ha
  · exact hb
  · exact insertable_of_isConstantValue hconst hs
  · exact .binary ha hb

end Expr

namespace ScalarGraph

open Building WeakForm.Expr

variable [DecidableEq R] {g g' : ScalarGraph R}

/-- **What a graph takes is inserted without a failure.** -/
theorem insert_insertable {e : Expr R} (h : Insertable e) (g : ScalarGraph R) :
    ∃ i g', Returns (insert e) g i g' := by
  induction h generalizing g with
  | @terminal e m ht hd =>
    cases hl : g.lookup e with
    | some i => exact ⟨i, g, (InsertRun.found hl).returns⟩
    | none => exact ⟨_, _, insert_modified hl (isScalar_of_analyse hd) ht⟩
  | @unary op a hop ha ih =>
    cases hl : g.lookup (unary op a) with
    | some i => exact ⟨i, g, (InsertRun.found hl).returns⟩
    | none =>
      -- the operand is inserted, then the node itself
      obtain ⟨j, g₁, hj⟩ := ih g
      exact ⟨_, _, (InsertRun.unary hop hl (Insertable.unary hop ha).isScalar hj).returns⟩
  | @binary op a b ha hb iha ihb =>
    cases hl : g.lookup (binary op a b) with
    | some i => exact ⟨i, g, (InsertRun.found hl).returns⟩
    | none =>
      -- the second operand is inserted into the graph the first one leaves
      obtain ⟨j, g₁, hj⟩ := iha g
      obtain ⟨k, g₂, hk⟩ := ihb g₁
      exact ⟨_, _, (InsertRun.binary hl (Insertable.binary ha hb).isScalar hj hk).returns⟩

end ScalarGraph

/-! ## The graph of such expressions -/

namespace Expr

open ScalarGraph

variable [Scalar R] [DecidableEq R]

omit [DecidableEq R] in
/-- A canonical scalar zero is written in one way. -/
theorem Canonical.eq_zero {e : Expr R} (hc : Canonical e) (hs : e.isScalar) (hz : e.isZero) :
    e = zero [] := by
  rw [isScalar_iff] at hs
  cases hc with
  | @leaf t ht =>
    rw [shape_leaf, free_leaf] at hs
    cases t with
    | zero shape free =>
      obtain ⟨rfl, rfl⟩ := hs
      rfl
    -- a literal of value zero is built as zero
    | literal v =>
      have hv : v.isZero = false := ht
      rw [isZero, hv] at hz
      cases hz
    | argument | coefficient | geometry => cases hz
  | unary | binary | listTensor => cases hz

/-- The only component of a scalar modified terminal is the terminal itself. -/
theorem terminalScalars_scalar {e : Expr R} {m : ModifiedTerminal R} (hc : Canonical e)
    (hd : e.analyse = .ok (some m)) : terminalScalars e = .ok #[e] := by
  have hs := isScalar_of_analyse hd
  obtain ⟨hshape, hfree⟩ := isScalar_iff.mp hs
  unfold terminalScalars
  split
  · next hz =>
    rw [hshape, hfree, hc.eq_zero hs hz]
    rfl
  -- with nothing to fix and no axis to index, both steps return the expression
  · have hfix : e.fix [] [] = .ok e := by
      rw [fix, if_pos rfl, substitute]
      rfl
    have hindex : e.index [] = .ok e := by
      rw [index, rank, hshape]
      rfl
    -- without axes and free indices, there is one component and one choice of positions
    simp only [hshape, hfree, FreeIndices.dims, List.map_nil, components_nil]
    refine bind_eq_ok.mpr ⟨[e], mapM_eq_ok.mpr (.cons (lift_eq_ok.mpr hfix) .nil), ?_⟩
    refine bind_eq_ok.mpr ⟨[e], flatMapM_eq_ok.mpr ⟨[[e]], ?_, rfl⟩, rfl⟩
    refine mapM_eq_ok.mpr (.cons (mapM_eq_ok.mpr (.cons ?_ .nil)) .nil)
    exact bind_eq_ok.mpr ⟨e, lift_eq_ok.mpr hindex, bind_eq_ok.mpr ⟨some m, hd, rfl⟩⟩

omit [DecidableEq R] in
theorem eachScalar_single {op : UnaryOp} {a r : Expr R} (h : op.apply a = .ok r) :
    eachScalar op #[a] = .ok #[r] := by
  rw [eachScalar, Array.mapM_eq_mapM_toList]
  refine map_eq_ok.mpr ⟨[r], mapM_eq_ok.mpr (.cons (lift_eq_ok.mpr h) .nil), rfl⟩

omit [DecidableEq R] in
theorem zipScalars_single {op : BinaryOp} {a b r : Expr R} (h : op.apply a b = .ok r) :
    zipScalars op #[a] #[b] = .ok #[r] := by
  refine bind_eq_ok.mpr ⟨[r], mapM_eq_ok.mpr (.cons ?_ .nil), rfl⟩
  exact bind_eq_ok.mpr ⟨a, rfl, bind_eq_ok.mpr ⟨b, rfl, lift_eq_ok.mpr h⟩⟩

omit [DecidableEq R] in
theorem productScalars_single {a b r : Expr R} (ha : a.isScalar) (hb : b.isScalar)
    (h : a.mul b = .ok r) : productScalars a b #[a] #[b] = .ok #[r] := by
  obtain ⟨hshape, hfree⟩ := isScalar_iff.mp (isScalar_binary .product ha hb)
  have hblock : ∀ {e : Expr R}, e.isScalar → e.block = 0 := fun he => by
    rw [block, (isScalar_iff.mp he).1]
    rfl
  -- there is one place, and nothing moves it
  dsimp only [productScalars]
  rw [hshape, hfree, hblock ha, hblock hb]
  refine bind_eq_ok.mpr ⟨[r], mapM_eq_ok.mpr (.cons ?_ .nil), rfl⟩
  exact bind_eq_ok.mpr ⟨a, rfl, bind_eq_ok.mpr ⟨b, rfl, lift_eq_ok.mpr h⟩⟩

/-- **Scalarization gives back what a graph takes.** -/
theorem scalarize_insertable {e : Expr R} (hc : Canonical e) (hi : Insertable e) :
    scalarize e = .ok #[e] := by
  induction hi with
  | terminal ht hd =>
    rw [scalarize.eq_def, if_pos ht]
    exact terminalScalars_scalar hc hd
  | @unary op a hop ha ih =>
    cases hc with
    | unary hca happly =>
    -- a function is not a modifier
    have hm : (unary op a).isModifiedTerminal = false := by
      rcases eq_math_or_abs hop with ⟨f, rfl⟩ | rfl <;> rfl
    rw [scalarize.eq_def, hm, if_neg Bool.false_ne_true]
    rcases eq_math_or_abs hop with ⟨f, rfl⟩ | rfl
    · exact bind_eq_ok.mpr ⟨#[a], ih hca, eachScalar_single happly⟩
    · exact bind_eq_ok.mpr ⟨#[a], ih hca, eachScalar_single happly⟩
  | @binary op a b ha hb iha ihb =>
    cases hc with
    | binary hca hcb happly =>
    rw [scalarize.eq_def, isModifiedTerminal, if_neg Bool.false_ne_true]
    cases op with
    | product =>
      refine bind_eq_ok.mpr ⟨#[a], iha hca, bind_eq_ok.mpr ⟨#[b], ihb hcb, ?_⟩⟩
      exact productScalars_single ha.isScalar hb.isScalar happly
    | sum | division | power =>
      refine bind_eq_ok.mpr ⟨#[a], iha hca, bind_eq_ok.mpr ⟨#[b], ihb hcb, ?_⟩⟩
      exact zipScalars_single happly

end Expr

namespace ScalarGraph

open Building WeakForm.Expr

variable [DecidableEq R] {g g' : ScalarGraph R}

/-- The targets of a graph hold the given expressions, in order. -/
def Targets (g : ScalarGraph R) (es : List (Expr R)) : Prop :=
  List.Forall₂ (fun t e => g.expr t = .ok e) g.targets.toList es

/-- One target more holds its expression, and the others hold what they held. -/
theorem Targets.insert (hg : g.WellFormed) {es : List (Expr R)} (ht : g.Targets es) {e : Expr R}
    {u : Unit} (h : Returns (insertTarget e) g u g') : g'.Targets (es ++ [e]) := by
  obtain ⟨i, g₁, hins, hpush⟩ := returns_bind.mp h
  obtain rfl := returns_modify.mp hpush
  have hinserted := insert_returns hg hins
  -- the earlier targets are still where they were
  have hold : List.Forall₂ (fun t e => g₁.expr t = .ok e) g.targets.toList es :=
    ht.imp fun t e h => hinserted.grown.expr h
  -- and the new target comes last
  have hlist : (g₁.pushTarget i).targets.toList = g.targets.toList ++ [i] := by
    rw [pushTarget, Array.toList_push, hinserted.grown.targets]
  rw [Targets, hlist]
  exact List.rel_append hold (.cons hinserted.expr .nil)

/-- Inserting a target succeeds when its expression can be inserted. -/
theorem insertTarget_insertable {e : Expr R} (h : Insertable e) (g : ScalarGraph R) :
    ∃ g', Returns (insertTarget e) g () g' := by
  obtain ⟨i, g₁, hins⟩ := insert_insertable h g
  exact ⟨g₁.pushTarget i, returns_bind.mpr ⟨i, g₁, hins, returns_modify.mpr rfl⟩⟩

/-- Inserting targets appends them in order. -/
theorem forM_insertTarget {done es : List (Expr R)} (hg : g.WellFormed) (ht : g.Targets done)
    (hi : ∀ e ∈ es, Insertable e) :
    ∃ g', Returns (es.forM insertTarget) g () g' ∧ g'.Targets (done ++ es) := by
  induction es generalizing done g with
  | nil => exact ⟨g, returns_pure.mpr ⟨rfl, rfl⟩, by rwa [List.append_nil]⟩
  | cons e es ih =>
    obtain ⟨g₁, hfirst⟩ := insertTarget_insertable (hi e List.mem_cons_self) g
    obtain ⟨g', hrest, ht'⟩ := ih (insertTarget_returns hg hfirst) (ht.insert hg hfirst)
      fun e he => hi e (List.mem_cons_of_mem _ he)
    rw [List.append_assoc] at ht'
    exact ⟨g', returns_bind.mpr ⟨(), g₁, hfirst, hrest⟩, ht'⟩

/-- Canonical expressions that a graph takes are inserted as they are. -/
theorem ofTargets_canonical_insertable [Scalar R] {es : List (Expr R)}
    (hc : ∀ e ∈ es, Canonical e) (hi : ∀ e ∈ es, Insertable e) :
    ofTargets es = .ok g ↔ Returns (es.forM insertTarget) {} () g := by
  have hscalars : List.Forall₂ (fun e as => scalarize e = .ok as) es (es.map fun e => #[e]) :=
    List.forall₂_map_right_iff.mpr (List.forall₂_same.mpr fun e he =>
      scalarize_insertable (hc e he) (hi e he))
  -- each expression is its only component
  have hflat : (es.map fun e => #[e]).flatMap Array.toList = es := by
    rw [List.flatMap_map]
    exact List.flatMap_singleton' es
  constructor
  · intro h
    obtain ⟨components, hcomponents, hr⟩ := ofTargets_eq_ok.mp h
    have hsingle : List.Forall₂ (fun e as => as = #[e]) es components :=
      -- components are unique, so each group holds its expression alone
      forall₂_imp_of_mem hcomponents fun e he as has => by
        rw [scalarize_insertable (hc e he) (hi e he)] at has
        exact (Except.ok.inj has).symm
    rwa [eq_map_of_forall₂ hsingle fun _ _ h => h, hflat] at hr
  · intro h
    refine ofTargets_eq_ok.mpr ⟨_, hscalars, ?_⟩
    rwa [hflat]

omit [DecidableEq R] in
/-- A part of an expression that can be inserted can be inserted. -/
theorem insertable_part {a e : Expr R} (h : Part a e) (he : Insertable e) : Insertable a := by
  -- towards the root, one operand at a time
  induction h with
  | refl => exact he
  | operand hb _ ih =>
    refine ih ?_
    cases he with
    | terminal ht =>
      rw [operandsOf_terminal ht] at hb
      cases hb
    | unary hop ha =>
      rw [hop, List.mem_singleton] at hb
      exact hb ▸ ha
    | binary ha hb' =>
      rcases List.mem_pair.mp hb with rfl | rfl
      · exact ha
      · exact hb'

/-- **The graph of canonical expressions that a graph takes is built.** It has them as its
targets, and holds nothing but their parts. -/
theorem ofTargets_insertable [Scalar R] {es : List (Expr R)} (hc : ∀ e ∈ es, Canonical e)
    (hi : ∀ e ∈ es, Insertable e) :
    ∃ g, ofTargets es = .ok g ∧ g.Targets es ∧ g.Holds fun a => ∃ e ∈ es, Part a e := by
  obtain ⟨g, hreturns, ht⟩ := forM_insertTarget wellFormed_empty .nil hi
  have hg : ofTargets es = .ok g := (ofTargets_canonical_insertable hc hi).mpr hreturns
  -- what is inserted is a part of a target, and parts of parts are parts
  refine ⟨g, hg, ht, ofTargets_keeps (fun b hb a ha => ?_) (fun e he as has s hs => ?_) hg⟩
  · obtain ⟨e, he, hpart⟩ := hb
    exact ⟨e, he, (Part.operand ha .refl).trans hpart⟩
  · cases (scalarize_insertable (hc e he) (hi e he)).symm.trans has
    obtain rfl : s = e := by simpa using hs
    exact ⟨s, he, .refl⟩

end ScalarGraph

end WeakForm
