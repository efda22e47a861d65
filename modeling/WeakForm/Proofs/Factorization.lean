import WeakForm.Proofs.ArgumentVector
import WeakForm.Proofs.FactorArithmetic
import WeakForm.Proofs.Rational

/-!
# Factorization into arguments is sound

A target that is put together again from its factors has the value of the expression
that the target node holds, in every field and under every valuation of the leaves that
gives leaves with equal descriptors equal values.

The proof follows the sweep. A node that is an argument is one times that argument. A
node without arguments is inserted as it is. Every other node is an operator over
operands that were swept before, and the arithmetic on sums of terms is sound. The terms
of all targets are collected by key, and a target is rebuilt from those that belong to
it.

* `sweepNode_computed`, `sweep_represents` — one node, and by induction all of them;
* `collectTerms_sum`, `collectTargets_sum` — the terms of one target, and of all;
* `Factorization.rebuild_value` — putting a target together;
* `factorize_sound` — the main result.
-/

namespace WeakForm

open Building ScalarGraph

variable {R K : Type} [Scalar R] [DecidableEq R] [Field K] {M : Model R K} {σ : Env}

/-! ## The sweep -/

section Sweep

variable {n : Nat} {g₀ g g' : ScalarGraph R}

/-- The factors of swept nodes stand for the values of their expressions. -/
def SweptSoundly (M : Model R K) (σ : Env) (n : Nat) (g₀ g : ScalarGraph R)
    (swept : Array Factors) : Prop :=
  ∀ (j : NodeId) (f : Factors) (e : Expr R), swept[j]? = some f → g₀.expr j = .ok e →
    f.Represents M σ n g (e.value M [] σ)

omit [Scalar R] in
/-- The factors of operands are read, if all of them were swept. -/
theorem returns_sweptOperands {swept : Array Factors} {ids : List NodeId} {fs : List Factors} :
    Returns (ids.mapM (sweptOperand (R := R) swept)) g fs g' ↔
      g = g' ∧ List.Forall₂ (fun j f => swept[j]? = some f) ids fs := by
  induction ids generalizing g g' fs with
  | nil =>
    rw [List.mapM_nil, returns_pure, List.forall₂_nil_left_iff, and_comm, eq_comm (a := fs)]
  | cons j ids ih =>
    -- reading one operand changes no graph
    have hread : ∀ f g₁, Returns (sweptOperand (R := R) swept j) g f g₁ ↔
        swept[j]? = some f ∧ g = g₁ := fun f g₁ => by
      unfold sweptOperand
      cases swept[j]? with
      | none => simp
      | some f' => simp [eq_comm]
    simp only [List.mapM_cons, returns_bind, returns_pure, hread, ih]
    constructor
    · rintro ⟨f, _, ⟨hf, rfl⟩, fs', _, ⟨rfl, hfs⟩, rfl, rfl⟩
      exact ⟨rfl, .cons hf hfs⟩
    · rintro ⟨rfl, h⟩
      cases h with
      | cons hf hfs => exact ⟨_, g, ⟨hf, rfl⟩, _, g, ⟨rfl, hfs⟩, rfl, rfl⟩

/-- How a node is swept: it is an argument, or it is free of arguments as all its operands
are and becomes a factor, or it is an operator over their factors. -/
inductive NodeSwept (position? : NodeId → Option Nat) (one : NodeId) (swept : Array Factors)
    (node : Node R) (i : NodeId) (g : ScalarGraph R) : Factors → ScalarGraph R → Prop
  | argument {p : Nat} (hp : position? i = some p) :
      NodeSwept position? one swept node i g (.terms (.single [p] one)) g
  | free {fs : List Factors} {k : NodeId} {g' : ScalarGraph R} (hp : position? i = none)
      (hfs : List.Forall₂ (fun j f => swept[j]? = some f) node.operands fs)
      (hfree : fs.all (·.isFree)) (hk : Returns (insert node.expr) g k g') :
      NodeSwept position? one swept node i g (.free k) g'
  | operator {fs : List Factors} {f : Factors} {g' : ScalarGraph R} (hp : position? i = none)
      (hfs : List.Forall₂ (fun j f => swept[j]? = some f) node.operands fs)
      (hfree : fs.all (·.isFree) = false) (hf : Returns (Factors.operator node.expr fs) g f g') :
      NodeSwept position? one swept node i g f g'

/-- A sweep of a node is what the three cases are. -/
theorem returns_sweepNode {position? : NodeId → Option Nat} {one : NodeId}
    {swept : Array Factors} {node : Node R} {i : NodeId} {f : Factors} :
    Returns (sweepNode position? one swept node i) g f g' ↔
      NodeSwept position? one swept node i g f g' := by
  unfold sweepNode
  constructor
  -- an argument, a factor without arguments, or an operator
  · intro h
    split at h
    · next p hp =>
      obtain ⟨rfl, rfl⟩ := returns_pure.mp h
      exact .argument hp
    · next hp =>
      simp only [returns_bind, returns_sweptOperands] at h
      obtain ⟨fs, _, ⟨rfl, hfs⟩, h⟩ := h
      split at h
      · next hfree =>
        simp only [returns_bind, returns_pure] at h
        obtain ⟨k, _, hk, rfl, rfl⟩ := h
        exact .free hp hfs hfree hk
      · next hfree => exact .operator hp hfs (Bool.eq_false_iff.mpr hfree) h
  · intro h
    cases h with
    | argument hp =>
      rw [hp]
      exact returns_pure.mpr ⟨rfl, rfl⟩
    | @free fs k _ hp hfs hfree hk =>
      rw [hp]
      refine returns_bind.mpr ⟨fs, g, returns_sweptOperands.mpr ⟨rfl, hfs⟩, ?_⟩
      rw [if_pos hfree]
      exact returns_bind.mpr ⟨k, g', hk, returns_pure.mpr ⟨rfl, rfl⟩⟩
    | @operator fs _ _ hp hfs hfree hf =>
      rw [hp]
      refine returns_bind.mpr ⟨fs, g, returns_sweptOperands.mpr ⟨rfl, hfs⟩, ?_⟩
      rw [if_neg (Bool.eq_false_iff.mp hfree)]
      exact hf

/-- A node whose position in the argument vector is `p` has the value of that argument. -/
def PositionsSound (M : Model R K) (σ : Env) (n : Nat) (g₀ g : ScalarGraph R)
    (position? : NodeId → Option Nat) : Prop :=
  ∀ (i : NodeId) (p : Nat), position? i = some p → p < n ∧
    ∃ e, g.expr p = .ok e ∧ ∀ e₀, g₀.expr i = .ok e₀ → e.value M [] σ = e₀.value M [] σ

/-- What the positions name stays in the graph. -/
theorem PositionsSound.mono {position? : NodeId → Option Nat}
    (h : PositionsSound M σ n g₀ g position?) (hext : g.Extends g') :
    PositionsSound M σ n g₀ g' position? := by
  intro i p hp
  obtain ⟨hlt, e, he, hv⟩ := h i p hp
  exact ⟨hlt, e, hext.expr he, hv⟩

/-- One times an argument. -/
theorem single_represents {p one : NodeId} {e eone : Expr R} (hp : p < n) (he : g.expr p = .ok e)
    (hone : g.expr one = .ok eone) (hval : eone.value M [] σ = 1) :
    (Factors.terms (.single [p] one)).Represents M σ n g (e.value M [] σ) := by
  refine ⟨?_, fun v hv => ?_⟩
  · refine FactorMap.within_empty.insert (lt_size_of_expr hone) fun q hq => ?_
    rw [List.mem_singleton.mp hq]
    exact hp
  · rw [FactorMap.eval, FactorMap.single, mapSum_insert_new (by simp), mapSum_empty, termValue,
      hv one eone hone, hval, List.map_singleton, List.prod_singleton, hv p e he]
    ring

/-- The factors of a node stand for its value if those of its operands do. -/
theorem sweepNode_computed (hM : M.Exact) (hq : M.ExactQuotients) (hg : g.WellFormed)
    {position? : NodeId → Option Nat} (hpos : PositionsSound M σ n g₀ g position?)
    {one : NodeId} {eone : Expr R} (hone : g.expr one = .ok eone)
    (hval : eone.value M [] σ = 1) {swept : Array Factors} (hswept : SweptSoundly M σ n g₀ g swept)
    {node : Node R} {i : NodeId} (hi : g₀.nodes[i]? = some node) (hn : g₀.NodeFormed i node)
    {f : Factors} (h : Returns (sweepNode position? one swept node i) g f g') :
    Factors.Computed M σ n g f (node.expr.value M [] σ) g' := by
  cases returns_sweepNode.mp h with
  | argument hp =>
    obtain ⟨hlt, e, he, hv⟩ := hpos i _ hp
    refine ⟨hg, .refl g, ?_⟩
    rw [← hv node.expr (expr_eq_ok.mpr ⟨node, hi, rfl⟩)]
    exact single_represents hlt he hone hval
  | free hp hfs hfree hk =>
    have hk := insert_returns hg hk
    exact ⟨hk.wellFormed, hk.grown, node.expr, hk.expr, rfl⟩
  | operator hp hfs hfree hf =>
    -- an operator applied to operands that were swept before
    obtain ⟨op, c, d, a, b, hexpr, rfl⟩ := Factors.operator_operands hf
    have hops := hn.operands
    rw [hexpr] at hf hops ⊢
    obtain ⟨j, js, ⟨-, hj⟩, hjs, hids⟩ := List.forall₂_cons_right_iff.mp hops
    obtain ⟨k, ks, ⟨-, hk⟩, hks, rfl⟩ := List.forall₂_cons_right_iff.mp hjs
    obtain rfl := List.forall₂_nil_right_iff.mp hks
    rw [hids] at hfs
    obtain ⟨ha, hfs⟩ := List.forall₂_cons.mp hfs
    obtain ⟨hb, -⟩ := List.forall₂_cons.mp hfs
    exact Factors.operator_computed hM hq hg (hswept j a c ha hj) (hswept k b d hb hk)
      (by simpa using hfree) hf

/-- The factors of all nodes stand for the values of the nodes. -/
theorem sweep_represents (hM : M.Exact) (hq : M.ExactQuotients) (hg₀ : g₀.WellFormed)
    (hg : g.WellFormed) {position? : NodeId → Option Nat}
    (hpos : PositionsSound M σ n g₀ g position?) {one : NodeId} {eone : Expr R}
    (hone : g.expr one = .ok eone) (hval : eone.value M [] σ = 1) {swept : Array Factors}
    (h : Returns (g₀.nodes.toList.zipIdx.foldlM
      (fun swept x => do return swept.push (← sweepNode position? one swept x.1 x.2)) #[])
      g swept g') :
    g'.WellFormed ∧ g.Extends g' ∧ SweptSoundly M σ n g₀ g' swept := by
  have key := foldlM_induct
    (P := fun done (swept : Array Factors) g₁ => g₁.WellFormed ∧ g.Extends g₁ ∧
      swept.size = done.length ∧ SweptSoundly M σ n g₀ g₁ swept) h
    ⟨hg, .refl g, rfl, fun j f e hf => by simp at hf⟩ ?_
  · exact ⟨key.1, key.2.1, key.2.2.2⟩
  · intro done x swept swept' g₁ g₂ hpre hP hr
    obtain ⟨hg₁, hext₁, hsize, hs⟩ := hP
    simp only [returns_bind, returns_pure] at hr
    obtain ⟨f, _, hf, rfl, rfl⟩ := hr
    -- the node that is swept next stands at the number of nodes that are done
    obtain ⟨node, i⟩ := x
    obtain ⟨hnode, rfl⟩ := item_of_done hpre
    have hc := sweepNode_computed hM hq hg₁ (hpos.mono hext₁) (hext₁.expr hone) hval hs hnode
      (hg₀.nodes _ node hnode) hf
    refine ⟨hc.wellFormed, hext₁.trans hc.grown, by simp [hsize], fun j f' e hj he => ?_⟩
    rw [Array.getElem?_push] at hj
    split at hj
    · next heq =>
      obtain ⟨node', hnode', rfl⟩ := expr_eq_ok.mp he
      rw [heq, hsize, hnode] at hnode'
      cases hnode'
      rw [← Option.some.inj hj]
      exact hc.represents
    · exact (hs j f' e hj he).mono hc.grown

end Sweep

/-! ## Collected terms -/

/-- The factors of all terms, by key, each with the target component it belongs to. -/
abbrev TermTable := Std.TreeMap ArgumentKey (List (NodeId × Nat))

namespace TermTable

/-- The sum of the terms of one target component under one key. -/
def usesValue (v : NodeId → K) (c : Nat) (key : ArgumentKey) (uses : List (NodeId × Nat)) : K :=
  ((uses.filter (·.2 = c)).map fun use => termValue v key use.1).sum

/-- The sum of the terms of one target component. -/
def componentValue (v : NodeId → K) (c : Nat) (terms : TermTable) : K :=
  mapSum (usesValue v c) terms

/-- Factors are nodes of `g`, and keys name arguments below `n`. -/
def Within (terms : TermTable) (n : Nat) (g : ScalarGraph R) : Prop :=
  ∀ (key : ArgumentKey) (uses : List (NodeId × Nat)), terms[key]? = some uses →
    ∀ use ∈ uses, use.1 < g.size ∧ ∀ p ∈ key, p < n

variable {n : Nat} {g g' : ScalarGraph R} {terms : TermTable}

omit [Scalar R] in
theorem Within.mono (h : terms.Within n g) (hext : g.Extends g') : terms.Within n g' :=
  fun key uses hu use hmem =>
    ⟨Nat.lt_of_lt_of_le (h key uses hu use hmem).1 hext.size_le, (h key uses hu use hmem).2⟩

/-- One more term. -/
def addUse (terms : TermTable) (key : ArgumentKey) (use : NodeId × Nat) : TermTable :=
  terms.insert key (terms.getD key [] ++ [use])

omit [Scalar R] in
/-- A use is added within the graph. -/
theorem Within.addUse (h : terms.Within n g) {key : ArgumentKey} {use : NodeId × Nat}
    (huse : use.1 < g.size) (hkey : ∀ p ∈ key, p < n) : (terms.addUse key use).Within n g := by
  intro key' uses hu use' hmem
  -- the uses of this key, or those of another
  rcases entry_of_insert hu with ⟨rfl, rfl⟩ | hu
  · rcases List.mem_append.mp hmem with hmem | hmem
    · -- a use that was there
      rw [Std.TreeMap.getD_eq_getD_getElem?] at hmem
      cases hold : terms[key']? with
      | none => simp [hold] at hmem
      | some old =>
        rw [hold] at hmem
        exact h key' old hold use' hmem
    · rw [List.mem_singleton.mp hmem]
      exact ⟨huse, hkey⟩
  · exact h key' uses hu use' hmem

/-- A use adds its term to the component it is for. -/
theorem componentValue_addUse (v : NodeId → K) (c : Nat) (key : ArgumentKey)
    (use : NodeId × Nat) :
    (terms.addUse key use).componentValue v c =
      terms.componentValue v c + if use.2 = c then termValue v key use.1 else 0 := by
  -- one more use of a factor under a key; a use for another component adds nothing
  have happend (uses : List (NodeId × Nat)) : usesValue v c key (uses ++ [use]) =
      usesValue v c key uses + if use.2 = c then termValue v key use.1 else 0 := by
    by_cases h : use.2 = c <;> simp [usesValue, h]
  rw [addUse, componentValue, Std.TreeMap.getD_eq_getD_getElem?]
  cases hold : terms[key]? with
  | none =>
    rw [mapSum_insert_new hold, Option.getD_none, happend, componentValue]
    simp only [usesValue, List.filter_nil, List.map_nil, List.sum_nil]
    ring
  | some old =>
    rw [mapSum_insert_old hold, Option.getD_some, happend, componentValue]
    ring

end TermTable

/-! ## Targets -/

section Targets

variable {n : Nat} {g₀ g g' : ScalarGraph R} {terms : TermTable}

/-- Collecting the terms of a component adds their sum to that component. -/
theorem collectTerms_sum (m : FactorMap) (component : Nat) (v : NodeId → K) (c : Nat) :
    TermTable.componentValue v c (collectTerms terms m component) =
      terms.componentValue v c + if component = c then m.eval v else 0 := by
  rw [collectTerms, Std.TreeMap.foldl_eq_foldl_toList, FactorMap.eval_eq_sum]
  -- entry by entry of the map
  induction m.toList generalizing terms with
  | nil => simp
  | cons entry rest ih =>
    have hadd : (terms.addUse entry.1 (entry.2, component)).componentValue v c =
        terms.componentValue v c + if component = c then termValue v entry.1 entry.2 else 0 :=
      TermTable.componentValue_addUse v c entry.1 (entry.2, component)
    rw [List.foldl_cons, ih]
    rw [TermTable.addUse] at hadd
    rw [hadd]
    by_cases h : component = c
    · simp only [h, if_true, List.map_cons, List.sum_cons]
      ring
    · simp only [h, if_false, add_zero]

omit [Scalar R] in
/-- Collected terms stand within the graph. -/
theorem collectTerms_within (hterms : terms.Within n g) {m : FactorMap} (hm : m.Within n g)
    (component : Nat) : TermTable.Within (collectTerms terms m component) n g := by
  rw [collectTerms, Std.TreeMap.foldl_eq_foldl_toList]
  -- entry by entry
  have hentries : ∀ entry ∈ m.toList, entry.2 < g.size ∧ ∀ p ∈ entry.1, p < n :=
    fun entry he => hm _ _ (Std.TreeMap.mem_toList_iff_getElem?_eq_some.mp he)
  revert hentries
  induction m.toList generalizing terms with
  | nil => exact fun _ => hterms
  | cons entry rest ih =>
    intro hentries
    have hentry := hentries entry List.mem_cons_self
    exact ih (hterms.addUse hentry.1 hentry.2) fun e he =>
      hentries e (List.mem_cons_of_mem _ he)

/-- The terms of a target stand for the value of the target. -/
theorem targetTerms_represents (hM : M.Exact) {rank : Nat} {e : Expr R} {f : Factors} {x : K}
    (hf : f.Represents M σ n g x) {m : FactorMap} (h : Returns (targetTerms rank e f) g m g') :
    g = g' ∧ (Factors.terms m).Represents M σ n g x := by
  unfold targetTerms at h
  split at h
  · -- an integrand with arguments stands for its terms
    next factors =>
    split at h
    · simp at h
    · obtain ⟨rfl, rfl⟩ := returns_pure.mp h
      exact ⟨rfl, hf⟩
  · -- one without arguments is a node
    next i =>
    obtain ⟨e', he, hx⟩ := hf
    -- a functional has it under the empty key, with the empty product of arguments
    split at h
    · obtain ⟨rfl, rfl⟩ := returns_pure.mp h
      refine ⟨rfl, FactorMap.within_empty.insert (lt_size_of_expr he) (by simp), fun v hv => ?_⟩
      rw [FactorMap.eval, FactorMap.single, mapSum_insert_new (by simp), mapSum_empty, termValue,
        hv i e' he, hx, List.map_nil, List.prod_nil]
      ring
    · -- a form must have none, so the node is zero
      simp only [returns_bind, returns_get, returns_lift] at h
      obtain ⟨_, _, ⟨rfl, rfl⟩, e'', _, ⟨he'', rfl⟩, h⟩ := h
      obtain rfl : e' = e'' := Except.ok.inj (he.symm.trans he'')
      split at h
      · next hz =>
        obtain ⟨rfl, rfl⟩ := returns_pure.mp h
        refine ⟨rfl, FactorMap.within_empty, fun v _ => ?_⟩
        rw [← hx, Expr.value_of_isZero hM hz]
        exact mapSum_empty
      · simp at h

/-- The terms that are collected of all targets are, target by target, those that stand
for its value. -/
theorem collectTargets_sum (hM : M.Exact) {swept : Array Factors}
    (hswept : SweptSoundly M σ n g₀ g swept) {rank : Nat}
    (h : Returns (g₀.targets.toList.zipIdx.foldlM (m := Building R)
      (fun terms x => do
        let factors ← sweptOperand swept x.1
        return collectTerms terms (← targetTerms rank (← g₀.expr x.1) factors) x.2) ∅)
      g terms g') :
    g = g' ∧ terms.Within n g ∧ ∀ (c t : Nat) (e : Expr R), g₀.targets[c]? = some t →
      g₀.expr t = .ok e → ∀ v : NodeId → K, g.ReadBy M σ v →
        terms.componentValue v c = e.value M [] σ := by
  -- components that are not done have no terms yet
  have key := foldlM_induct
    (P := fun done (terms : TermTable) g₁ => g = g₁ ∧ terms.Within n g ∧
      (∀ v : NodeId → K, ∀ c, done.length ≤ c → terms.componentValue v c = 0) ∧
      ∀ (c t : Nat) (e : Expr R), c < done.length → g₀.targets[c]? = some t →
        g₀.expr t = .ok e → ∀ v : NodeId → K, g.ReadBy M σ v →
          terms.componentValue v c = e.value M [] σ) h
    ⟨rfl, fun key uses hu => by simp at hu, fun v c _ => mapSum_empty,
      fun c t e hc => by cases hc⟩ ?_
  · obtain ⟨hgg, hin, -, hall⟩ := key
    refine ⟨hgg, hin, fun c t e hc => hall c t e ?_ hc⟩
    obtain ⟨hlt, -⟩ := Array.getElem?_eq_some_iff.mp hc
    simpa using hlt
  · intro done x terms terms' g₁ g₂ hpre hP hr
    obtain ⟨rfl, hin, hlater, hall⟩ := hP
    simp only [returns_bind, returns_pure, returns_lift] at hr
    obtain ⟨f, g₃, hf, e, _, ⟨he, rfl⟩, m, g₄, hm, rfl, rfl⟩ := hr
    obtain ⟨t, i⟩ := x
    obtain ⟨ht, rfl⟩ := item_of_done hpre
    unfold sweptOperand at hf
    split at hf
    · next f' hf' =>
      obtain ⟨rfl, rfl⟩ := returns_pure.mp hf
      obtain ⟨rfl, hrep⟩ := targetTerms_represents hM (hswept t f' e hf' he) hm
      refine ⟨rfl, collectTerms_within hin hrep.1 _, fun v c hc => ?_,
        fun c t' e' hc ht' he' v hv => ?_⟩
      · rw [List.length_append, List.length_singleton] at hc
        rw [collectTerms_sum, hlater v c (by omega), if_neg (by simp only; omega), add_zero]
      · rw [List.length_append, List.length_singleton] at hc
        rw [collectTerms_sum]
        by_cases hlast : done.length = c
        · subst hlast
          rw [ht] at ht'
          cases ht'
          -- the component of the next target is the only one that changes
          obtain rfl : e = e' := Except.ok.inj (he.symm.trans he')
          rw [hlater v _ (Nat.le_refl _), if_pos rfl, zero_add, hrep.2 v hv]
        · rw [if_neg hlast, add_zero]
          exact hall c t' e' (by omega) ht' he' v hv
    · simp at hf

end Targets

/-! ## Putting a target together -/

namespace Factorization

variable {n : Nat} {F : Factorization R} {v : NodeId → K}

/-- A factor times the arguments of its key. -/
theorem term_value (hM : M.Exact) (hscalar : ∀ i e, F.graph.expr i = .ok e → e.isScalar)
    (hn : n ≤ F.graph.size) (hv : F.graph.ReadBy M σ v) {key : ArgumentKey} {f : NodeId}
    (hf : f < F.graph.size) (hkey : ∀ p ∈ key, p < n) :
    ∃ r, F.term key f = .ok r ∧ r.isScalar ∧ r.value M [] σ = termValue v key f := by
  obtain ⟨e, he⟩ := exists_expr hf
  -- generalized to a product that has been started
  suffices H : ∀ (key : ArgumentKey) (a : Expr R), (∀ p ∈ key, p < n) → a.isScalar →
      ∃ r, key.foldlM (fun product p => do product.mul (← F.argument p)) a = .ok r ∧
        r.isScalar ∧ r.value M [] σ = a.value M [] σ * (key.map v).prod by
    obtain ⟨r, hr, hs, hval⟩ := H key e hkey (hscalar f e he)
    refine ⟨r, ?_, hs, by rw [hval, termValue, hv f e he]⟩
    rw [term, he]
    exact hr
  -- argument by argument of the key
  intro key
  induction key with
  | nil => exact fun a _ ha => ⟨a, rfl, ha, by simp⟩
  | cons p key ih =>
    intro a hkey ha
    obtain ⟨b, hb⟩ := exists_expr (Nat.lt_of_lt_of_le (hkey p List.mem_cons_self) hn)
    obtain ⟨r₁, hr₁, hs₁⟩ := Expr.isScalar_mul ha (hscalar p b hb)
    obtain ⟨r, hr, hs, hval⟩ := ih r₁ (fun q hq => hkey q (List.mem_cons_of_mem _ hq)) hs₁
    refine ⟨r, ?_, hs, ?_⟩
    · rw [List.foldlM_cons, argument, hb]
      exact bind_eq_ok.mpr ⟨r₁, hr₁, hr⟩
    · rw [hval, Expr.value_mul_scalar hM ha (hscalar p b hb) hr₁, List.map_cons,
        List.prod_cons, hv p b hb]
      ring

omit [Scalar R] in
/-- The terms of a component add up to its value. -/
theorem sum_termsOf (v : NodeId → K) (c : Nat) :
    ((F.termsOf c).map fun use => termValue v use.1 use.2).sum =
      TermTable.componentValue v c F.terms := by
  rw [termsOf, TermTable.componentValue, mapSum]
  induction F.terms.toList with
  | nil => rfl
  | cons entry rest ih =>
    rw [List.flatMap_cons, List.map_append, List.sum_append, ih, List.map_cons, List.sum_cons]
    simp [TermTable.usesValue, Function.comp_def]

omit [Scalar R] in
/-- The uses of a component stand within the graph. -/
theorem termsOf_within (hin : TermTable.Within F.terms n F.graph) {c : Nat}
    {use : ArgumentKey × NodeId} (h : use ∈ F.termsOf c) :
    use.2 < F.graph.size ∧ ∀ p ∈ use.1, p < n := by
  obtain ⟨⟨key, uses⟩, hentry, h⟩ := List.mem_flatMap.mp h
  obtain ⟨⟨f, c'⟩, hf, rfl⟩ := List.mem_map.mp h
  exact hin key uses (Std.TreeMap.mem_toList_iff_getElem?_eq_some.mp hentry) (f, c')
    (List.mem_filter.mp hf).1

/-- A target component is put together, and has the value of its terms. -/
theorem rebuild_value (hM : M.Exact) (hscalar : ∀ i e, F.graph.expr i = .ok e → e.isScalar)
    (hn : n ≤ F.graph.size) (hv : F.graph.ReadBy M σ v)
    (hin : TermTable.Within F.terms n F.graph) (c : Nat) :
    ∃ r, F.rebuild c = .ok r ∧ r.value M [] σ = TermTable.componentValue v c F.terms := by
  have hall : ∀ use ∈ F.termsOf c, use.2 < F.graph.size ∧ ∀ p ∈ use.1, p < n :=
    fun use h => termsOf_within hin h
  -- generalized to a sum that has been started
  suffices H : ∀ (uses : List (ArgumentKey × NodeId)) (a : Expr R),
      (∀ use ∈ uses, use.2 < F.graph.size ∧ ∀ p ∈ use.1, p < n) → a.isScalar →
      ∃ r, uses.foldlM (fun sum use => do sum.add (← F.term use.1 use.2)) a = .ok r ∧
        r.value M [] σ = a.value M [] σ + (uses.map fun use => termValue v use.1 use.2).sum by
    obtain ⟨r, hr, hval⟩ := H (F.termsOf c) (Expr.zero []) hall (by
      simp [Expr.zero, Expr.isScalar_iff, Terminal.shape, Terminal.free])
    refine ⟨r, hr, ?_⟩
    rw [hval, sum_termsOf, Expr.zero, Expr.value_zero, zero_add]
  -- the sum is taken use by use
  intro uses
  induction uses with
  | nil => exact fun a _ _ => ⟨a, rfl, by simp⟩
  | cons use uses ih =>
    intro a huses ha
    obtain ⟨hf, hkey⟩ := huses use List.mem_cons_self
    obtain ⟨t, ht, hts, htv⟩ := term_value hM hscalar hn hv hf hkey
    obtain ⟨r₁, hr₁, hs₁⟩ := Expr.isScalar_add ha hts
    obtain ⟨r, hr, hval⟩ := ih r₁ (fun u hu => huses u (List.mem_cons_of_mem _ hu)) hs₁
    refine ⟨r, ?_, ?_⟩
    · rw [List.foldlM_cons]
      exact bind_eq_ok.mpr ⟨r₁, bind_eq_ok.mpr ⟨t, ht, hr₁⟩, hr⟩
    · rw [hval, Expr.value_add hM hr₁, htv, List.map_cons, List.sum_cons]
      ring

end Factorization

/-! ## Soundness -/

namespace ScalarGraph

/-- Leaves of a graph with equal descriptors have equal values. -/
def Coherent (g : ScalarGraph R) (M : Model R K) (σ : Env) : Prop :=
  ∀ (i j : NodeId) (a b : Expr R) (m m' : ModifiedTerminal R), g.expr i = .ok a →
    g.expr j = .ok b → a.analyse = .ok (some m) → b.analyse = .ok (some m') →
    m.toDescriptor = m'.toDescriptor → a.value M [] σ = b.value M [] σ

omit [Scalar R] in
/-- Choosing targets changes no node. -/
theorem useFactors_nodes (g : ScalarGraph R) (fs : List NodeId) :
    (fs.foldl useFactor g).nodes = g.nodes := by
  induction fs generalizing g with
  | nil => rfl
  | cons f fs ih =>
    rw [List.foldl_cons, ih, useFactor]
    split <;> rfl

omit [Scalar R] in
theorem expr_of_nodes {g g' : ScalarGraph R} (h : g'.nodes = g.nodes) (i : NodeId) :
    g'.expr i = g.expr i := by
  rw [expr, expr, node, node, h]

omit [Scalar R] in
/-- The leaves that are arguments, in the order of the argument vector. -/
theorem arguments_of_leaves {g : ScalarGraph R} (hg : g.WellFormed)
    {leaves : List (NodeId × ModifiedTerminal R)} (hleaves : ∀ l ∈ leaves, g.IsLeaf l.1 l.2) :
    Arguments (distinct (leaves.map (·.2))) := by
  obtain ⟨hnodup, hmem⟩ := distinct_spec (leaves.map (·.2))
  -- a distinct terminal comes from one of the leaves
  have hleaf : ∀ m ∈ distinct (leaves.map (·.2)), ∃ i, g.IsLeaf i m := by
    intro m hm
    obtain ⟨l, hl, rfl⟩ := List.mem_map.mp (hmem m hm)
    exact ⟨l.1, hleaves l hl⟩
  refine ⟨fun m hm => ?_, fun m hm => ?_, hnodup⟩
  · obtain ⟨i, n, hn, -, hd⟩ := hleaf m hm
    rw [hd.expr]
    exact hd
  · obtain ⟨i, n, hn, hop, hd⟩ := hleaf m hm
    rw [hd.expr]
    exact (hg.nodes i n hn).terminal (List.isEmpty_iff.mp hop)

/-- The terms a sweep ends with are, component by component, those of the targets. -/
theorem sweep_sound (hM : M.Exact) (hq : M.ExactQuotients) {g₀ : ScalarGraph R}
    (hg₀ : g₀.WellFormed) {rank : Nat} {arguments : List (ModifiedTerminal R)}
    (ha : Arguments arguments) {position? : NodeId → Option Nat}
    (hpos : ∀ i p, position? i = some p → ∃ m, arguments[p]? = some m ∧
      ∀ e₀, g₀.expr i = .ok e₀ → m.expr.value M [] σ = e₀.value M [] σ)
    {terms : TermTable} {g' : ScalarGraph R}
    (h : Returns (g₀.sweep rank arguments position?) {} terms g') :
    (∀ i e, g'.expr i = .ok e → e.isScalar) ∧ arguments.length ≤ g'.size ∧
      terms.Within arguments.length g' ∧ ∀ (c t : Nat) (e : Expr R), g₀.targets[c]? = some t →
        g₀.expr t = .ok e → ∀ v : NodeId → K, g'.ReadBy M σ v →
          terms.componentValue v c = e.value M [] σ := by
  simp only [sweep, returns_bind, returns_modify, returns_pure] at h
  obtain ⟨u, g₁, hargs, one, g₂, hone, swept, g₃, hswept, terms', g₄, hterms, -, g₅, hg₅, rfl,
    rfl⟩ := h
  obtain ⟨hg₁, hsize₁, hexpr₁⟩ := insertArguments_returns ha (foldlM_of_forIn hargs)
  have hone := insert_returns hg₁ hone
  have hval : (Expr.real Scalar.one : Expr R).value M [] σ = 1 := by
    rw [Expr.real, Expr.value_literal hM]
    exact hM.one
  have hpos₂ : PositionsSound M σ arguments.length g₀ g₂ position? := by
    intro i p hp
    obtain ⟨m, hm, hv⟩ := hpos i p hp
    exact ⟨(List.getElem?_eq_some_iff.mp hm).1, m.expr, hone.grown.expr (hexpr₁ p m hm), hv⟩
  obtain ⟨hg₃, hext₃, hsound⟩ :=
    sweep_represents hM hq hg₀ hone.wellFormed hpos₂ hone.expr hval hswept
  obtain ⟨rfl, hin, hsum⟩ := collectTargets_sum hM hsound hterms
  -- the factors in use become targets, and no node changes
  have hnodes : g₅.nodes = g₃.nodes := hg₅ ▸ useFactors_nodes g₃ _
  have hsize : g₅.size = g₃.size := by rw [size, size, hnodes]
  have hle : arguments.length ≤ g₃.size :=
    hsize₁ ▸ Nat.le_trans hone.grown.size_le hext₃.size_le
  refine ⟨fun i e he => ?_, hsize ▸ hle, fun key uses hu use hmem => ?_,
    fun c t e ht he v hv => ?_⟩
  · rw [expr_of_nodes hnodes] at he
    exact hg₃.expr_scalar he
  · rw [hsize]
    exact hin key uses hu use hmem
  · refine hsum c t e ht he v fun i e' he' => hv i e' ?_
    rw [expr_of_nodes hnodes]
    exact he'

/-- One node more is swept. -/
theorem sweepNodes_cons {g g₁ g₂ : ScalarGraph R} {position? : NodeId → Option Nat} {one : NodeId}
    {swept out : Array Factors} {n : Node R} {i : NodeId} {rest : List (Node R × NodeId)}
    {f : Factors} (hnode : NodeSwept position? one swept n i g f g₁)
    (hrest : Returns (rest.foldlM (fun swept x => do
      return swept.push (← sweepNode position? one swept x.1 x.2)) (swept.push f)) g₁ out g₂) :
    Returns (((n, i) :: rest).foldlM (fun swept x => do
      return swept.push (← sweepNode position? one swept x.1 x.2)) swept) g out g₂ := by
  rw [List.foldlM_cons]
  refine returns_bind.mpr ⟨swept.push f, g₁, ?_, hrest⟩
  exact returns_bind.mpr ⟨f, g₁, returns_sweepNode.mpr hnode, returns_pure.mpr ⟨rfl, rfl⟩⟩

/-- The sweep over a graph with one target. -/
theorem sweep_target {g g₀ g₁ g₂ : ScalarGraph R} {rank : Nat}
    {arguments : List (ModifiedTerminal R)} {position? : NodeId → Option Nat} {t : NodeId}
    {e : Expr R} {one : NodeId} {swept : Array Factors} {f : Factors} {factors : FactorMap}
    (htargets : g.targets = #[t]) (he : g.expr t = .ok e)
    (harguments : Returns (forIn arguments PUnit.unit fun m _ => do
      let _ ← insert m.expr
      pure (ForInStep.yield PUnit.unit)) {} PUnit.unit g₀)
    (hone : Returns (insert (Expr.real Scalar.one)) g₀ one g₁)
    (hnodes : Returns (g.nodes.toList.zipIdx.foldlM (fun swept x => do
      return swept.push (← sweepNode position? one swept x.1 x.2)) #[]) g₁ swept g₂)
    (hf : swept[t]? = some f) (hterms : Returns (targetTerms rank e f) g₂ factors g₂) :
    Returns (g.sweep rank arguments position?) {} (collectTerms ∅ factors 0)
      (((collectTerms ∅ factors 0).toList.flatMap fun x => x.2.map (·.1)).foldl useFactor g₂) := by
  -- each step of the sweep, with one target
  rw [sweep, htargets]
  refine returns_bind.mpr ⟨PUnit.unit, g₀, harguments, returns_bind.mpr ⟨one, g₁, hone,
    returns_bind.mpr ⟨swept, g₂, hnodes, returns_bind.mpr ⟨collectTerms ∅ factors 0, g₂, ?_,
      returns_bind.mpr ⟨PUnit.unit, _, returns_modify.mpr rfl, returns_pure.mpr ⟨rfl, rfl⟩⟩⟩⟩⟩⟩
  have hread : Returns (sweptOperand swept t) g₂ f g₂ := by
    rw [sweptOperand, hf]
    exact returns_pure.mpr ⟨rfl, rfl⟩
  refine returns_bind.mpr ⟨collectTerms ∅ factors 0, g₂,
    returns_bind.mpr ⟨f, g₂, hread, ?_⟩, returns_pure.mpr ⟨rfl, rfl⟩⟩
  exact returns_bind.mpr ⟨e, g₂, returns_lift.mpr ⟨he, rfl⟩,
    returns_bind.mpr ⟨_, _, hterms, returns_pure.mpr ⟨rfl, rfl⟩⟩⟩

/-- A factorization is what its sweep ends with. -/
theorem factorize_of_sweep {g g' : ScalarGraph R} {rank : Nat}
    {found leaves : List (NodeId × ModifiedTerminal R)} {arguments : List (ModifiedTerminal R)}
    {positions : List (NodeId × Nat)} {terms : TermTable} (hfound : g.leafTerminals = .ok found)
    (hleaves : sortArguments (found.filter (·.2.isArgument)) = leaves)
    (harguments : distinct (leaves.map (·.2)) = arguments)
    (hpositions : (leaves.filterMap fun (i, m) =>
      (argumentPosition? arguments m).map (i, ·)) = positions)
    (h : Returns (g.sweep rank arguments fun i => (Std.HashMap.ofList positions)[i]?) {} terms g') :
    g.factorize rank = .ok { graph := g', arguments, terms, size := g.targets.size } := by
  subst hleaves harguments hpositions
  unfold factorize
  rw [hfound]
  simp only [bind, Except.bind]
  rw [show (g.sweep rank _ _).run.run {} = (.ok terms, g') from h]
  rfl

/-- A leaf has the value of the argument at its position, since the two have one
descriptor. -/
theorem positions_sound {g : ScalarGraph R} (hcoherent : g.Coherent M σ)
    {leaves : List (NodeId × ModifiedTerminal R)} (hleaves : ∀ l ∈ leaves, g.IsLeaf l.1 l.2)
    {i : NodeId} {p : Nat}
    (h : (Std.HashMap.ofList (leaves.filterMap fun (i, m) =>
      (argumentPosition? (distinct (leaves.map (·.2))) m).map (i, ·)))[i]? = some p) :
    ∃ m, (distinct (leaves.map (·.2)))[p]? = some m ∧
      ∀ e, g.expr i = .ok e → m.expr.value M [] σ = e.value M [] σ := by
  -- the position names a distinct argument
  obtain ⟨leaf, hleaf, hi⟩ := List.mem_filterMap.mp (mem_of_getElem?_ofList h)
  obtain ⟨p', hp', heq⟩ := Option.map_eq_some_iff.mp hi
  cases heq
  obtain ⟨m, hm, hd⟩ := argumentPosition?_spec hp'
  refine ⟨m, hm, fun e he => ?_⟩
  have hmem := (distinct_spec _).2 m (List.mem_of_getElem? hm)
  -- the argument comes from a leaf, too, with the same descriptor
  obtain ⟨leaf', hleaf', rfl⟩ := List.mem_map.mp hmem
  obtain ⟨n, hn, -, hdn⟩ := hleaves leaf hleaf
  obtain ⟨n', hn', -, hdn'⟩ := hleaves leaf' hleaf'
  obtain rfl : n.expr = e := Except.ok.inj ((expr_eq_ok.mpr ⟨n, hn, rfl⟩).symm.trans he)
  rw [hdn'.expr]
  exact hcoherent leaf'.1 leaf.1 n'.expr n.expr leaf'.2 leaf.2 (expr_eq_ok.mpr ⟨n', hn', rfl⟩) he
    hdn' hdn hd

end ScalarGraph

/-- **Factorization is sound**: a target that is rebuilt from its factors and arguments has
the value of the expression that its node holds. -/
theorem factorize_sound (hM : M.Exact) (hq : M.ExactQuotients) {es : List (Expr R)}
    {g : ScalarGraph R} (hg : ScalarGraph.ofTargets es = .ok g) (hcoherent : g.Coherent M σ)
    {rank : Nat} {F : Factorization R} (hF : g.factorize rank = .ok F) {c : Nat} {t : NodeId}
    (ht : g.targets[c]? = some t) :
    ∃ e r, g.expr t = .ok e ∧ F.rebuild c = .ok r ∧ r.value M [] σ = e.value M [] σ := by
  have hg := ofTargets_wellFormed hg
  unfold factorize at hF
  obtain ⟨found, hfound, hF⟩ := bind_eq_ok.mp hF
  -- the argument vector consists of leaves of the graph
  have hleaves : ∀ l ∈ sortArguments (found.filter (·.2.isArgument)), g.IsLeaf l.1 l.2 :=
    fun l hl => ((mem_argumentLeaves hg hfound).mp hl).1
  dsimp only at hF
  split at hF
  · next terms g' hr =>
    obtain ⟨rfl, rfl⟩ : F.graph = g' ∧ F.terms = terms := by
      rw [← Except.ok.inj hF]
      exact ⟨rfl, rfl⟩
    -- what the sweep ends with stands for the targets, and is rebuilt term by term
    obtain ⟨hscalar, hn, hin, hsum⟩ := sweep_sound hM hq hg (arguments_of_leaves hg hleaves)
      (fun i p hp => positions_sound hcoherent hleaves hp) hr
    obtain ⟨e, he⟩ := exists_expr (hg.targets t (Array.mem_of_getElem? ht))
    obtain ⟨v, hv⟩ := F.graph.exists_readBy M σ
    obtain ⟨r, hr, hval⟩ := Factorization.rebuild_value hM hscalar hn hv hin c
    exact ⟨e, r, he, hr, by rw [hval]; exact hsum c t e ht he v hv⟩
  · cases hF

/-! ### A form with one test function -/

namespace SingleTest

open ScalarGraph

/-- A test function of linear elements on a triangle. -/
def test : Expr ℚ :=
  .argument ⟨0, none, ⟨1, 1, []⟩, .ofCell .triangle 0⟩

def descriptor : ModifiedTerminal ℚ where
  terminal := .argument ⟨0, none, ⟨1, 1, []⟩, .ofCell .triangle 0⟩
  physical := []
  reference := []
  component := []
  restriction := none
  averaged := none
  expr := test

theorem analyse_test : test.analyse = .ok (some descriptor) := by
  cbv

/-- The graph of the form. -/
def graph : ScalarGraph ℚ :=
  (({} : ScalarGraph ℚ).push test []).pushTarget 0

theorem ofTargets_test : ofTargets [test] = .ok graph :=
  ofTargets_modified (by with_unfolding_all rfl) (by cbv) rfl

/-- The graph holds nothing else. -/
theorem expr_graph {i : NodeId} {e : Expr ℚ} (h : graph.expr i = .ok e) : e = test := by
  obtain ⟨n, hn, rfl⟩ := expr_eq_ok.mp h
  match i with
  | 0 => cases hn; rfl
  | i + 1 => cases hn

end SingleTest

/-! ### A test function times a volume and over it -/

namespace ScaledTest

open ScalarGraph SingleTest

/-- The volume of the cell. -/
def volume : Expr ℚ :=
  .leaf (.geometry ⟨.cellVolume, .ofCell .triangle 0⟩)

def volumeDescriptor : ModifiedTerminal ℚ where
  terminal := .geometry ⟨.cellVolume, .ofCell .triangle 0⟩
  physical := []
  reference := []
  component := []
  restriction := none
  averaged := none
  expr := volume

/-- The test function times the volume. -/
def scaled : Expr ℚ :=
  .binary .product volume test

/-- The test function over the volume. -/
def density : Expr ℚ :=
  .binary .division test volume

/-- Two terms in one argument. -/
def form : Expr ℚ :=
  .binary .sum scaled density

/-- The graph of the first term. -/
def firstTerm : ScalarGraph ℚ :=
  ((({} : ScalarGraph ℚ).push volume []).push test []).push scaled [0, 1]

/-- The graph of the form. -/
def graph : ScalarGraph ℚ :=
  ((firstTerm.push density [1, 0]).push form [2, 3]).pushTarget 4

/-- The operands of the second term are there when it is inserted. -/
theorem insert_form :
    Returns (insert form) {} 4 ((firstTerm.push density [1, 0]).push form [2, 3]) := by
  have hvolume : Returns (insert volume) {} 0 (({} : ScalarGraph ℚ).push volume []) :=
    insert_leaf (lookup_empty _) (by cbv)
  -- the empty graph is well formed, and so is the one with the test function
  have hg := (insert_returns wellFormed_empty hvolume).wellFormed
  have htest : Returns (insert test) (({} : ScalarGraph ℚ).push volume []) 1 _ :=
    insert_leaf (hg.lookup_eq_none (by decide +kernel)) (by cbv)
  have hscaled : Returns (insert scaled) {} 2 firstTerm :=
    (InsertRun.binary (lookup_empty _) (by cbv) hvolume htest).returns
  have hg := (insert_returns wellFormed_empty hscaled).wellFormed
  have hdensity : Returns (insert density) firstTerm 3 (firstTerm.push density [1, 0]) :=
    (InsertRun.binary (hg.lookup_eq_none (by decide +kernel)) (by cbv) (hg.insert_known rfl)
      (hg.insert_known rfl)).returns
  exact (InsertRun.binary (lookup_empty _) (by cbv) hscaled hdensity).returns

theorem ofTargets_form : ofTargets [form] = .ok graph :=
  ofTargets_scalar (by with_unfolding_all rfl) insert_form

theorem analyse_volume : volume.analyse = .ok (some volumeDescriptor) := by
  cbv

/-- Operators are no terminals. -/
theorem analyse_operators {e : Expr ℚ} (h : e ∈ [scaled, density, form]) :
    e.analyse = .ok none := by
  simp only [List.mem_cons, List.not_mem_nil, or_false] at h
  rcases h with rfl | rfl | rfl <;> cbv

/-- The leaves of the graph are the volume and the test function. -/
theorem descriptor_of_graph {i : NodeId} {e : Expr ℚ} {m : ModifiedTerminal ℚ}
    (he : graph.expr i = .ok e) (hm : e.analyse = .ok (some m)) :
    e = volume ∧ m = volumeDescriptor ∨ e = test ∧ m = descriptor := by
  obtain ⟨n, hn, rfl⟩ := expr_eq_ok.mp he
  have hmem : n ∈ graph.nodes.toList := Array.mem_toList_iff.mpr (Array.mem_of_getElem? hn)
  -- the nodes of the graph are the two leaves and three operators
  have hcases : n.expr ∈ [volume, test, scaled, density, form] := List.mem_map_of_mem hmem
  rcases List.mem_cons.mp hcases with hvolume | hcases
  · rw [hvolume, analyse_volume] at hm
    cases hm
    exact .inl ⟨hvolume, rfl⟩
  rcases List.mem_cons.mp hcases with htest | hoperator
  · rw [htest, analyse_test] at hm
    cases hm
    exact .inr ⟨htest, rfl⟩
  · rw [analyse_operators hoperator] at hm
    cases hm

/-- The graph has one test function, so its leaves are coherent. -/
theorem coherent_graph {M : Model ℚ ℚ} : graph.Coherent M fun _ => 0 := by
  intro i j a b m m' ha hb hm hm' hd
  rcases descriptor_of_graph ha hm with ⟨rfl, rfl⟩ | ⟨rfl, rfl⟩
  · rcases descriptor_of_graph hb hm' with ⟨rfl, rfl⟩ | ⟨rfl, rfl⟩
    · rfl
    · cases hd
  · rcases descriptor_of_graph hb hm' with ⟨rfl, rfl⟩ | ⟨rfl, rfl⟩
    · cases hd
    · rfl

/-- The graph of the form, with what is noted about its leaves. -/
def noted (m m' : Option (ModifiedTerminal ℚ)) : ScalarGraph ℚ :=
  { graph with nodes := #[
      { expr := volume, operands := [], terminal := m },
      { expr := test, operands := [], terminal := m' },
      { expr := scaled, operands := [0, 1] },
      { expr := density, operands := [1, 0] },
      { expr := form, operands := [2, 3] }] }

/-- One over the volume. -/
def perVolume : Expr ℚ :=
  .binary .division (Expr.real Scalar.one) volume

/-- What the test function is multiplied with. -/
def factor : Expr ℚ :=
  .binary .sum volume perVolume

/-- The argument vector, and one. -/
def argumentsAndOne : ScalarGraph ℚ :=
  (({} : ScalarGraph ℚ).push test []).push (Expr.real Scalar.one) []

def firstFactor : ScalarGraph ℚ :=
  argumentsAndOne.push volume []

/-- The graph of the factors. -/
def factors : ScalarGraph ℚ :=
  (firstFactor.push perVolume [1, 2]).push factor [2, 3]

/-- The two terms have one key. -/
def terms : TermTable :=
  collectTerms ∅ (.single [0] 4) 0

/-- What the form factorizes into. -/
def factorization : Factorization ℚ where
  graph := (terms.toList.flatMap fun x => x.2.map (·.1)).foldl useFactor factors
  arguments := [descriptor]
  terms := terms
  size := 1

/-- A factor of one is scaled as a node is. -/
theorem scale_single {op : BinaryOp} {x y i : NodeId} {g g' : ScalarGraph ℚ}
    (h : Returns (Factors.combine op x y) g i g') :
    Returns (Factors.scale op (.single [0] x) y) g (.terms (.single [0] i)) g' := by
  rw [Factors.scale, Std.TreeMap.foldlM_eq_foldlM_toList,
    show (FactorMap.single [0] x).toList = [([0], x)] from rfl, List.foldlM_cons]
  simp only [List.foldlM_nil, returns_bind, returns_pure]
  exact ⟨_, _, ⟨_, _, ⟨i, g', h, rfl, rfl⟩, rfl, rfl⟩, rfl, rfl⟩

/-- A sum of one term with one term adds the factors. -/
theorem sum_single {e : Expr ℚ} {x y i : NodeId} {g g' : ScalarGraph ℚ}
    (h : Returns (Factors.combine .sum x y) g i g') :
    Returns (Factors.sum e (.terms (.single [0] x)) (.terms (.single [0] y))) g
      (.terms (.single [0] i)) g' := by
  have hlength : ((FactorMap.single [0] x).keys ++ (FactorMap.single [0] y).keys).all
    (·.length = (Factors.terms (.single [0] x)).rank) := rfl
  have hx : (FactorMap.single [0] x)[[0]]? = some x := rfl
  rw [Factors.sum, if_pos hlength, Std.TreeMap.foldlM_eq_foldlM_toList,
    show (FactorMap.single [0] y).toList = [([0], y)] from rfl, List.foldlM_cons]
  simp only [hx, List.foldlM_nil, returns_bind, returns_pure]
  exact ⟨_, _, ⟨_, _, ⟨i, g', h, rfl, rfl⟩, rfl, rfl⟩, rfl, rfl⟩

/-- The terms are scaled by the volume and divided by it, and their sum has one factor. -/
theorem sweep_noted (m m' : Option (ModifiedTerminal ℚ)) {position? : NodeId → Option Nat}
    (hnone : ∀ i, i ≠ 1 → position? i = none) (hsome : position? 1 = some 0) :
    Returns ((noted m m').sweep 1 [descriptor] position?) {} terms factorization.graph := by
  have htest : Returns (insert test) {} 0 (({} : ScalarGraph ℚ).push test []) :=
    insert_leaf (lookup_empty _) (by cbv)
  have hg := (insert_returns wellFormed_empty htest).wellFormed
  have hone : Returns (insert (Expr.real Scalar.one)) (({} : ScalarGraph ℚ).push test []) 1
      argumentsAndOne :=
    insert_leaf (hg.lookup_eq_none (by decide +kernel)) (by cbv)
  have hg := (insert_returns hg hone).wellFormed
  have hvolume : Returns (insert volume) argumentsAndOne 2 firstFactor :=
    insert_leaf (hg.lookup_eq_none (by decide +kernel)) (by cbv)
  have hg := (insert_returns hg hvolume).wellFormed
  have hperVolume : Returns (insert perVolume) firstFactor 3 (firstFactor.push perVolume [1, 2]) :=
    (InsertRun.binary (hg.lookup_eq_none (by decide +kernel)) (by cbv) (hg.insert_known rfl)
      (hg.insert_known rfl)).returns
  -- the graph with one over the volume is well formed, too
  have hg' := (insert_returns hg hperVolume).wellFormed
  have hfactor : Returns (insert factor) (firstFactor.push perVolume [1, 2]) 4 factors :=
    (InsertRun.binary (hg'.lookup_eq_none (by decide +kernel)) (by cbv) (hg'.insert_known rfl)
      (hg'.insert_known rfl)).returns
  -- one times the volume is the volume
  have hscaled : Returns (Factors.scale .product (.single [0] 1) 2) firstFactor
      (.terms (.single [0] 2)) firstFactor :=
    scale_single (returns_combine.mpr ⟨_, volume, volume, rfl, rfl, by cbv, hg.insert_known rfl⟩)
  have hdensity : Returns (Factors.scale .division (.single [0] 1) 2) firstFactor
      (.terms (.single [0] 3)) (firstFactor.push perVolume [1, 2]) :=
    scale_single (returns_combine.mpr ⟨_, volume, perVolume, rfl, rfl, by cbv, hperVolume⟩)
  have hform : Returns (Factors.sum form (.terms (.single [0] 2)) (.terms (.single [0] 3)))
      (firstFactor.push perVolume [1, 2]) (.terms (.single [0] 4)) factors :=
    sum_single (returns_combine.mpr ⟨volume, perVolume, factor, rfl, rfl, by cbv, hfactor⟩)
  have hnodes : Returns ((noted m m').nodes.toList.zipIdx.foldlM (fun swept x => do
      return swept.push (← sweepNode position? 1 swept x.1 x.2)) #[]) argumentsAndOne
      #[.free 2, .terms (.single [0] 1), .terms (.single [0] 2), .terms (.single [0] 3),
        .terms (.single [0] 4)] factors := by
    refine sweepNodes_cons (.free (hnone 0 (by decide)) .nil rfl hvolume) ?_
    refine sweepNodes_cons (.argument hsome) ?_
    refine sweepNodes_cons (.operator (hnone 2 (by decide)) (.cons rfl (.cons rfl .nil)) rfl
      hscaled) ?_
    refine sweepNodes_cons (.operator (hnone 3 (by decide)) (.cons rfl (.cons rfl .nil)) rfl
      hdensity) ?_
    refine sweepNodes_cons (.operator (hnone 4 (by decide)) (.cons rfl (.cons rfl .nil)) rfl
      hform) ?_
    exact returns_pure.mpr ⟨rfl, rfl⟩
  have htargets : (noted m m').targets = #[4] := rfl
  have hexpr : (noted m m').expr 4 = .ok form := rfl
  refine sweep_target htargets hexpr ?_ hone hnodes rfl (returns_pure.mpr ⟨rfl, rfl⟩)
  -- the argument vector
  simp only [List.forIn_cons, List.forIn_nil, returns_bind, returns_pure]
  exact ⟨_, _, ⟨0, _, htest, rfl, rfl⟩, rfl⟩

/-- The form factorizes, whether or not the descriptors of its leaves are noted. -/
theorem factorize_noted {m m' : Option (ModifiedTerminal ℚ)}
    (hm : (noted m m').leafTerminals = .ok [(0, volumeDescriptor), (1, descriptor)]) :
    (noted m m').factorize 1 = .ok factorization := by
  have hpositions : ∀ i, i ≠ 1 → (Std.HashMap.ofList [((1 : NodeId), 0)])[i]? = none := by
    intro i hi
    simp [Ne.symm hi]
  -- the only leaf that is an argument
  have hleaves : sortArguments ([((0 : NodeId), volumeDescriptor), (1, descriptor)].filter
      (·.2.isArgument)) = [(1, descriptor)] := by
    with_unfolding_all rfl
  have harguments : distinct ([((1 : NodeId), descriptor)].map (·.2)) = [descriptor] := by
    with_unfolding_all rfl
  exact factorize_of_sweep hm hleaves harguments (by with_unfolding_all rfl)
    (sweep_noted m m' hpositions (by simp))

theorem factorize_graph : graph.factorize 1 = .ok factorization :=
  factorize_noted (m := none) (by cbv)

/-- Two for the volume, and three for the test function. -/
def model : Model ℚ ℚ :=
  .rational (fun t _ => if t.argument?.isSome then 3 else 2) fun _ _ _ _ _ => 0

/-- With the volume 2 and the test function 3, the form is 6 + 3/2. -/
theorem value_form : form.value model [] (fun _ => 0) = 15 / 2 := by
  have hform : form.value model [] (fun _ => 0) = 2 * 3 + 3 / 2 := rfl
  rw [hform]
  norm_num

end ScaledTest

/-- A test function times a volume and over it is put together from one factor. -/
theorem factorize_sound_scaledTest :
    ScaledTest.graph.factorize 1 = .ok ScaledTest.factorization ∧
      ScaledTest.factorization.terms.toList = [([0], [(4, 0)])] ∧
      ∃ r, ScaledTest.factorization.rebuild 0 = .ok r ∧
        r.value ScaledTest.model [] (fun _ => 0) = 15 / 2 := by
  have htarget : ScaledTest.graph.targets[0]? = some 4 := rfl
  obtain ⟨e, r, he, hr, hvalue⟩ := factorize_sound Model.rational_exact
    Model.rational_exactQuotients ScaledTest.ofTargets_form ScaledTest.coherent_graph
    ScaledTest.factorize_graph htarget
  obtain rfl : ScaledTest.form = e := Except.ok.inj he
  refine ⟨ScaledTest.factorize_graph, by with_unfolding_all rfl, r, hr, ?_⟩
  exact hvalue.trans ScaledTest.value_form

end WeakForm
