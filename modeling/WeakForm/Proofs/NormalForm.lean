import WeakForm.Proofs.Balancing
import WeakForm.Proofs.Rational
import WeakForm.Proofs.Reduction
import WeakForm.Proofs.Separation
import WeakForm.Proofs.Visits

/-!
# Normalization keeps the value of an integrand

Normalization rebuilds an integrand from the leaves. Every node over normal forms has the
attributes and the values of the node over the operands, so does the chain that a fold
exposes and that is balanced, and so does the item of a list tensor. What is left is the
body of an indexed component tensor, whose indices are renamed: it is equivalent to the
indexing if no binder of the body captures one of the indices that are put in.

The pass does not see to that. The index of an indexing may be bound inside the tensor, by
an index sum of another scope, and the renaming then moves the index under that sum.

* `Balances` — values that do not tell a chain from its balanced form;
* `normalForm_equivalent`, `normalize_value` — the normal form is equivalent to the integrand;
* `normalize_value_capture` — an integrand whose normal form loses a free index.
-/

namespace WeakForm.Expr

variable {R A : Type} [Scalar R]

/-! ## What the theorem asks for -/

/-- No terminal of the expression is a quadrature weight. -/
inductive WeightFree : Expr R → Prop
  | leaf {t : Terminal R} (h : ∀ g, t = .geometry g → g.kind ≠ .quadratureWeight) :
      WeightFree (leaf t)
  | unary {op : UnaryOp} {a : Expr R} (ha : WeightFree a) : WeightFree (unary op a)
  | binary {op : BinaryOp} {a b : Expr R} (ha : WeightFree a) (hb : WeightFree b) :
      WeightFree (binary op a b)
  | listTensor {items : List (Expr R)} (hi : ∀ item ∈ items, WeightFree item) :
      WeightFree (listTensor items)

/-- Values of scalar leaves that do not tell a chain from its balanced form. -/
def Balances [CommRing A] (M : Model R A) (leaves : Expr R → A) : Prop :=
  ∀ e r, Canonical e → e.isModifiedTerminal → balance e = .ok r → ∀ c σ, c.length = e.rank →
    r.value (M.withLeaves leaves) c σ = e.value (M.withLeaves leaves) c σ

/-! ## Without weights, nothing is replaced -/

section Weights

variable [DecidableEq R] {f : Expr R → Option (Expr R)} {e : Expr R}

/-- Where `f` exchanges neither the expression nor anything in it, replacement leaves every operand
and so the node as it is. -/
theorem replace_eq_self {P : Expr R → Prop} (hP : ∀ e, P e → ∀ a ∈ e.operands, P a)
    (hf : ∀ e, P e → f e = none) (he : P e) : replace f e = .ok e := by
  induction e with
  -- nothing is replaced, so each node is rebuilt over the operands it had
  | leaf t => rw [replace, hf _ he]
  | unary op a ih =>
    rw [replace, hf _ he]
    simp only [ih (hP _ he a List.mem_cons_self)]
    exact if_pos rfl
  | binary op a b iha ihb =>
    rw [replace, hf _ he]
    simp only [iha (hP _ he a List.mem_cons_self),
      ihb (hP _ he b (List.mem_cons_of_mem _ List.mem_cons_self))]
    exact if_pos ⟨rfl, rfl⟩
  | listTensor items ih =>
    have hitems : replaceAll f items = .ok items := by
      rw [replaceAll_eq_mapM]
      exact mapM_eq_ok.mpr (List.forall₂_same.mpr fun item hi => ih item hi (hP _ he item hi))
    rw [replace, hf _ he]
    simp only [hitems]
    exact if_pos rfl

omit [Scalar R] [DecidableEq R] in
/-- The operands of an expression without weights have none. -/
theorem WeightFree.operand {a : Expr R} (h : WeightFree e) (ha : a ∈ e.operands) :
    WeightFree a := by
  cases h with
  | leaf => cases ha
  | unary h => rwa [List.mem_singleton.mp ha]
  | binary ha' hb' =>
    rcases List.mem_pair.mp ha with rfl | rfl
    · exact ha'
    · exact hb'
  | listTensor hi => exact hi _ ha

/-- Weights are replaced by one: an expression without them stays as it is. -/
theorem replaceWeights_of_weightFree (h : WeightFree e) : e.replaceWeights = .ok e := by
  rw [replaceWeights, replaceTerminals, replaceNodes_eq_replace]
  refine replace_eq_self (fun e he a => he.operand) (fun e he => ?_) h
  cases he with
  | @leaf t h =>
    cases t with
    | geometry g => exact if_neg (h g rfl)
    | argument | coefficient | literal | zero => rfl
  | unary | binary | listTensor => rfl

end Weights

/-! ## Nodes over equivalent operands -/

section Nodes

variable [Field A] {M : Model R A} {leaves : Expr R → A} {a a' b b' e r : Expr R}

/-- Balancing a chain gives an equivalent expression. -/
theorem equivalent_balance (hbal : Balances M leaves) (hcan : Canonical e)
    (hm : e.isModifiedTerminal) (h : balance e = .ok r) : Equivalent M leaves e r := by
  have hbalanced := balance_chain hcan h
  exact ⟨hbalanced.canonical, .chain (chain_balance hm h), hbalanced.shape, hbalanced.free,
    hbal e r hcan hm h⟩

/-- Finishing a node gives an equivalent expression. -/
theorem equivalent_finish (hbal : Balances M leaves) (hcan : Canonical e) (hint : Integrand e)
    (h : finish e = .ok r) : Equivalent M leaves e r := by
  unfold finish at h
  split at h
  · next hc =>
    rw [Bool.and_eq_true] at hc
    exact equivalent_balance hbal hcan hc.2 h
  · cases h
    exact .refl hcan hint

/-- The node of a label is its operand. -/
theorem equivalent_label (number : Nat) (h : Equivalent M leaves a r) :
    Equivalent M leaves (unary (.labelled number) a) r where
  canonical := h.canonical
  integrand := h.integrand
  shape := by
    rw [h.shape, shape_unary]
    rfl
  free := by
    rw [h.free, free_unary]
    rfl
  value c σ hc := by
    rw [value_unary_labelled]
    refine h.value c σ ?_
    rw [hc, rank, shape_unary]
    rfl

/-- An operator over an equivalent operand. -/
theorem equivalent_unary {op : UnaryOp} (hM : M.Exact) (hfun : M.ExactFunctions)
    (hop : op.Computes) (hcan : Canonical a) (hint : Integrand a)
    (happly : op.apply a = .ok (unary op a)) (ha : Equivalent M leaves a a')
    (hr : op.apply a' = .ok r) : Equivalent M leaves (unary op a) r := by
  -- a node over an equivalent operand is one over the operand renamed by nothing
  have hav : Renaming.Avoids [] a.free op.bound := by
    intro i _ _ j _ hfind
    cases hfind
  have honOp : Renaming.onOp [] op = op := by
    have hid : Renaming.onIndex [] = id := by
      funext j
      cases j <;> rfl
    rw [Renaming.onOp_eq, hid, UnaryOp.mapIndices_id]
  refine (renamed_computes hM hfun hop hcan happly hav (ha.renamed hcan hint) ?_).equivalent
    (Canonical.unary hcan happly).sorted
  rwa [honOp]

/-- A binary operator on equivalent operands gives an equivalent expression. -/
theorem equivalent_binary {op : BinaryOp} (hM : M.Exact) (hq : M.ExactQuotients)
    (hfun : M.ExactFunctions) (hca : Canonical a) (hcb : Canonical b) (hia : Integrand a)
    (hib : Integrand b) (happly : op.apply a b = .ok (binary op a b))
    (ha : Equivalent M leaves a a') (hb : Equivalent M leaves b b')
    (hr : op.apply a' b' = .ok r) : Equivalent M leaves (binary op a b) r :=
  (renamed_binary hM hq hfun hca.sorted hcb.sorted happly (ha.renamed hca hia)
    (hb.renamed hcb hib) hr).equivalent (Canonical.binary hca hcb happly).sorted

/-- A list of equivalent items gives an equivalent expression. -/
theorem equivalent_stack {items items' : List (Expr R)} (hM : M.Exact)
    (hcan : ∀ item ∈ items, Canonical item) (hint : ∀ item ∈ items, Integrand item)
    (happly : stack items = .ok (listTensor items))
    (hi : List.Forall₂ (Equivalent M leaves) items items') (hr : stack items' = .ok r) :
    Equivalent M leaves (listTensor items) r := by
  have hren : List.Forall₂ (Renamed M leaves []) items items' :=
    forall₂_imp_of_mem hi fun item hm _ h => h.renamed (hcan item hm) (hint item hm)
  exact (renamed_listTensor hM happly hren hr).equivalent
    (Canonical.listTensor hcan happly).sorted

end Nodes

/-! ## Values that balancing keeps -/

omit [Scalar R] in
/-- Mapping indices keeps the terminal at the core. -/
theorem core_mapIndices (f : Index → Index) (e : Expr R) : (e.mapIndices f).core = e.core := by
  induction e with
  | leaf | binary | listTensor => rfl
  | unary op a ih => exact ih

omit [Scalar R] in
theorem core_leafAt (e : Expr R) (c : List Nat) (σ : Env) : (e.leafAt c σ).core = e.core := by
  rw [leafAt]
  split
  · exact core_mapIndices _ e
  · exact core_mapIndices _ e

/-- Values that depend on the terminal of a scalar leaf alone. -/
theorem balances_core [CommRing A] {M : Model R A} (g : Option (Terminal R) → A) :
    Balances M fun e => g e.core := by
  intro e r hcan hm h c σ hc
  have hbalanced := balance_chain hcan h
  by_cases hconst : e.isConstantValue
  · -- a constant is in balance
    have heq : balance e = .ok e := by
      unfold isConstantValue at hconst
      split at hconst
      · simp [balance, chain?, chainBelow, UnaryOp.gradientOfIndexed]
      · simp [balance, chain?, chainBelow, UnaryOp.gradientOfIndexed]
      · cases hconst
    rw [heq] at h
    cases h
    rfl
  · have he : e.isConstantValue = false := by simpa using hconst
    have hrank : c.length = r.rank := by
      rw [hc, rank, rank, hbalanced.shape]
    -- both chains are read at their terminal, which balancing keeps
    rw [value_chain hcan hm he hc, value_chain hbalanced.canonical (chain_balance hm h)
      (hbalanced.constant.trans he) hrank, core_leafAt, core_leafAt, hbalanced.core]

/-! ## The pass -/

section Pass

variable [Field A] [DecidableEq R] {M : Model R A} {leaves : Expr R → A} {a a' e r : Expr R}

/-- A unary operator over the normal form of its operand. -/
theorem equivalent_stepPlain {op : UnaryOp} (hM : M.Exact) (hfun : M.ExactFunctions)
    (hbal : Balances M leaves) (hop : op.Computes) (hcan : Canonical a) (hint : Integrand a)
    (happly : op.apply a = .ok (unary op a))
    (ha : ∀ a', normalForm a = .ok a' → Equivalent M leaves a a')
    (h : stepPlain op (normalForm a) = .ok r) : Equivalent M leaves (unary op a) r := by
  unfold stepPlain at h
  split at h
  · exact equivalent_label _ (ha r h)
  · obtain ⟨a', ha', h⟩ := bind_eq_ok.mp h
    obtain ⟨b, hb, h⟩ := bind_eq_ok.mp h
    have hnode := equivalent_unary hM hfun hop hcan hint happly (ha a' ha') hb
    exact hnode.trans (equivalent_finish hbal hnode.canonical hnode.integrand h)

omit [DecidableEq R] in
/-- An indexing of an operand that is in normal form and is not reduced. -/
theorem equivalent_indexedOver {is : List Index} (hM : M.Exact) (hfun : M.ExactFunctions)
    (hbal : Balances M leaves) (hcan : Canonical a) (hint : Integrand a)
    (happly : a.index is = .ok (unary (.indexed is) a)) (ha : Equivalent M leaves a a')
    (h : indexedOver a' is = .ok r) : Equivalent M leaves (unary (.indexed is) a) r := by
  obtain ⟨b, hb, h⟩ := bind_eq_ok.mp h
  have hb : UnaryOp.apply (.indexed is) a' = .ok b := hb
  have hnode := equivalent_unary hM hfun (fun _ => ⟨is, rfl⟩) hcan hint happly ha hb
  split at h
  · cases h
    exact hnode
  · exact hnode.trans (equivalent_finish hbal hnode.canonical hnode.integrand h)

/-- What an indexed normal form reduces to is equivalent to the indexing. -/
theorem equivalent_reduced {is : List Index} {b : Expr R} (hM : M.Exact) (hq : M.ExactQuotients)
    (hfun : M.ExactFunctions) (happly : a.index is = .ok (unary (.indexed is) a))
    (ha : Equivalent M leaves a a')
    (hbody : ∀ ids body, a' = unary (.componentTensor ids) body → CaptureFree (ids.zip is) body)
    (h : reduced? a' is = some (.ok b)) : Equivalent M leaves (unary (.indexed is) a) b := by
  rcases reduced?_built h with ⟨ids, body, rfl, hr⟩ | ⟨items, rfl, hr⟩
  · exact equivalent_tensor hM hq hfun happly ha (hbody ids body rfl) hr
  · exact equivalent_item hM happly ha hr

/-- **The normal form is equivalent to the integrand**, where no index is captured. -/
theorem normalForm_equivalent (hM : M.Exact) (hq : M.ExactQuotients) (hfun : M.ExactFunctions)
    (hbal : Balances M leaves) (hun : Uncaptured e) (hcan : Canonical e) (hint : Integrand e)
    (h : normalForm e = .ok r) : Equivalent M leaves e r := by
  induction hun generalizing r with
  | @chain e hm =>
    rw [normalForm_chain hm] at h
    exact equivalent_balance hbal hcan hm h
  | @unary op a hop hun ih =>
    by_cases hm : (Expr.unary op a).isModifiedTerminal
    · rw [normalForm_chain hm] at h
      exact equivalent_balance hbal hcan hm h
    · rw [normalForm_eq, step, if_neg hm, stepUnary, hop] at h
      obtain ⟨hinta, hcomputes | hchain⟩ := hint.operand
      -- any other operator computes its meaning from its operand
      · cases hcan with
        | unary hca happly =>
          exact equivalent_stepPlain hM hfun hbal hcomputes hca hinta happly
            (fun a' ha' => ih hca hinta ha') h
      -- a chain of modifiers was excluded
      · rw [isModifiedTerminal, Bool.and_eq_true] at hm
        exact absurd hchain hm
  | @indexed is a hun hbody hnext ih ihnext =>
    by_cases hm : (Expr.unary (.indexed is) a).isModifiedTerminal
    · rw [normalForm_chain hm] at h
      exact equivalent_balance hbal hcan hm h
    · have hindices : UnaryOp.indices? (.indexed is) = some is := rfl
      rw [normalForm_eq, step, if_neg hm, stepUnary, hindices] at h
      obtain ⟨a', ha', h⟩ := bind_eq_ok.mp h
      obtain ⟨hinta, -⟩ := hint.operand
      cases hcan with
      | unary hca happly =>
        have ha := ih hca hinta ha'
        unfold stepIndexed at h
        split at h
        · next body hreduced =>
          -- the pass goes on with what the indexing has been reduced to
          obtain ⟨b, rfl, h⟩ := bind_eq_ok.mp h
          have hcf : ∀ ids body, a' = Expr.unary (.componentTensor ids) body →
              CaptureFree (ids.zip is) body := by
            rintro ids body rfl
            exact hbody ids body ha'
          have hb := equivalent_reduced hM hq hfun happly ha hcf hreduced
          exact hb.trans (ihnext a' b ha' hreduced hb.canonical hb.integrand h)
        -- nothing is reduced: the indexing stands over the new operand
        · exact equivalent_indexedOver hM hfun hbal hca hinta happly ha h
  | @binary op a b _ _ iha ihb =>
    -- a binary operator is no modified terminal
    have hm : ¬(Expr.binary op a b).isModifiedTerminal := by
      intro hm
      cases hm
    rw [normalForm_eq, step, if_neg hm] at h
    obtain ⟨a', ha', h⟩ := bind_eq_ok.mp h
    obtain ⟨b', hb', h⟩ := bind_eq_ok.mp h
    obtain ⟨c, hc, h⟩ := bind_eq_ok.mp h
    obtain ⟨hinta, hintb⟩ := hint.operands
    cases hcan with
    | binary hca hcb happly =>
      -- both operands are in normal form, and the node is finished
      have hnode := equivalent_binary hM hq hfun hca hcb hinta hintb happly (iha hca hinta ha')
        (ihb hcb hintb hb') hc
      exact hnode.trans (equivalent_finish hbal hnode.canonical hnode.integrand h)
  | @listTensor items _ ih =>
    -- neither is a list
    have hm : ¬(Expr.listTensor items).isModifiedTerminal := by
      intro hm
      cases hm
    rw [normalForm_eq, step, if_neg hm] at h
    obtain ⟨items', hitems, h⟩ := bind_eq_ok.mp h
    obtain ⟨c, hc, h⟩ := bind_eq_ok.mp h
    cases hcan with
    | listTensor hci happly =>
      have hequiv : List.Forall₂ (Equivalent M leaves) items items' :=
        forall₂_imp_of_mem (mapM_eq_ok.mp hitems) fun item hmem item' hr =>
          ih item hmem (hci item hmem) (hint.items item hmem) hr
      have hnode := equivalent_stack hM hci hint.items happly hequiv hc
      exact hnode.trans (equivalent_finish hbal hnode.canonical hnode.integrand h)

/-- **Normalization keeps the shape, the free indices and the values of an integrand** in
which it captures no index. -/
theorem normalize_value (hM : M.Exact) (hq : M.ExactQuotients) (hfun : M.ExactFunctions)
    (hbal : Balances M leaves) (hbuilt : Built e) (hint : Integrand e) (hweights : WeightFree e)
    (hun : Uncaptured e) (h : normalize e = .ok r) :
    r.shape = e.shape ∧ r.free = e.free ∧ ∀ c σ, c.length = e.rank →
      r.value (M.withLeaves leaves) c σ = e.value (M.withLeaves leaves) c σ := by
  rw [normalize_eq, replaceWeights_of_weightFree hweights] at h
  have hequiv := normalForm_equivalent hM hq hfun hbal hun hbuilt.canonical hint h
  exact ⟨hequiv.shape, hequiv.free, hequiv.value⟩

end Pass

/-! ### A contraction inside a tensor

The tensor `∑ⱼ v[i] w[j]` over `i`, at an index. Where that index is not `j`, the normal form
is the sum at the index. Where it is `j`, the sum takes the index as its own. -/

namespace Contraction

def vector (count : Nat) : Expr ℚ :=
  coefficient ⟨count, ⟨1, 1, [2]⟩, .ofCell .triangle 0⟩

/-- The component of a vector at a free index. -/
def entry (count : Nat) (i : IndexId) : Expr ℚ :=
  unary (.indexed [.free i]) (vector count)

/-- `∑ⱼ v[i] w[j]`, where `j` is 2. -/
def contraction (i : IndexId) : Expr ℚ :=
  unary (.indexSum 2) (binary .product (entry 0 i) (entry 1 2))

/-- The contractions over `i`, at an index. -/
def integrand (k : IndexId) : Expr ℚ :=
  unary (.indexed [.free k]) (unary (.componentTensor [1]) (contraction 1))

/-- The integrand is built by the constructors. -/
theorem built_integrand {k : IndexId}
    (h : UnaryOp.apply (.indexed [.free k]) (.unary (.componentTensor [1]) (contraction 1)) =
      .ok (integrand k)) : Built (integrand k) := by
  have hv : UnaryOp.apply (.indexed [.free 1]) (vector 0) = .ok (entry 0 1) := by
    cbv
  have hw : UnaryOp.apply (.indexed [.free 2]) (vector 1) = .ok (entry 1 2) := by
    cbv
  have hproduct : BinaryOp.apply .product (entry 0 1) (entry 1 2) =
      .ok (binary .product (entry 0 1) (entry 1 2)) := by
    cbv
  have hsum : UnaryOp.apply (.indexSum 2) (binary .product (entry 0 1) (entry 1 2)) =
      .ok (contraction 1) := by
    cbv
  have htensor : UnaryOp.apply (.componentTensor [1]) (contraction 1) =
      .ok (.unary (.componentTensor [1]) (contraction 1)) := by
    cbv
  have hfactors := Built.binary (.unary (.coefficient _) hv) (.unary (.coefficient _) hw) hproduct
  exact .unary (.unary (.unary hfactors hsum) htensor) h

theorem integrand_integrand (k : IndexId) : Integrand (integrand k) := by
  have hcomputes : ∀ {op : UnaryOp}, op.isModifier = false → op.Computes := by
    intro op hop h
    rw [hop] at h
    cases h
  refine .unary (fun _ => ⟨_, rfl⟩) (.unary (hcomputes rfl) (.unary (hcomputes rfl) ?_))
  exact .binary (.chain rfl) (.chain rfl)

theorem weightFree_integrand (k : IndexId) : WeightFree (integrand k) := by
  have hentry : ∀ count i, WeightFree (entry count i) := fun count i =>
    .unary (.leaf fun g hg => nomatch hg)
  exact .unary (.unary (.unary (.binary (hentry 0 1) (hentry 1 2))))

/-- Nothing is captured in the integrand with index 3. -/
theorem separated_integrand : Separated (integrand 3) := by
  have hentry : ∀ count i, Separated (entry count i) := fun _ _ => separated_chain rfl
  have hplain : ∀ {op : UnaryOp} {a : Expr ℚ}, op.indices? = none →
      ∀ is, op = .indexed is → Apart is a := by
    rintro op a hop is rfl
    cases hop
  -- the sum binds another index than the one that is put in
  have hcontraction : ¬Binds (contraction 1) 3 := by
    intro h
    cases h with
    | here h => exact absurd h (by decide)
    | inside h =>
      cases h with
      | left h => exact not_binds_chain rfl 3 h
      | right h => exact not_binds_chain rfl 3 h
  refine .unary (fun is heq j hj hb => ?_) (.unary (hplain rfl) (.unary (hplain rfl)
    (.binary (hentry 0 1) (hentry 1 2))))
  cases heq
  obtain rfl : j = 3 := by simpa using hj
  -- the component tensor binds index 1
  cases hb with
  | here h => exact absurd h (by decide)
  | inside h => exact hcontraction h

/-- An indexed coefficient is in normal form. -/
theorem normalForm_entry (count : Nat) (i : IndexId) :
    normalForm (entry count i) = .ok (entry count i) := by
  rw [normalForm_eq, step.eq_def, if_pos (by rfl)]
  simp [balance, entry, vector, coefficient, chain?, chainBelow, UnaryOp.isModifier,
    UnaryOp.gradientOfIndexed]

/-- The contraction is in normal form. -/
theorem normalForm_contraction {i : IndexId}
    (hproduct : BinaryOp.apply .product (entry 0 i) (entry 1 2) =
      .ok (binary .product (entry 0 i) (entry 1 2)))
    (hsum : UnaryOp.apply (.indexSum 2) (binary .product (entry 0 i) (entry 1 2)) =
      .ok (contraction i)) : normalForm (contraction i) = .ok (contraction i) := by
  have hnode : normalForm (binary .product (entry 0 i) (entry 1 2)) =
      .ok (binary .product (entry 0 i) (entry 1 2)) := by
    rw [normalForm_eq, step, if_neg (by simp [isModifiedTerminal]), normalForm_entry,
      normalForm_entry]
    simp only [bind, Except.bind, hproduct]
    rfl
  rw [contraction, normalForm_eq, step, if_neg (by simp [isModifiedTerminal, UnaryOp.isModifier]),
    hnode]
  show (do finish (← UnaryOp.apply (.indexSum 2) (binary .product (entry 0 i) (entry 1 2)))) = _
  rw [hsum]
  rfl

/-- The component tensor of the contraction is in normal form. -/
theorem normalForm_tensor : normalForm (.unary (.componentTensor [1]) (contraction 1)) =
    .ok (.unary (.componentTensor [1]) (contraction 1)) := by
  rw [normalForm_eq, step, if_neg (by simp [isModifiedTerminal, UnaryOp.isModifier]),
    normalForm_contraction (by cbv) (by cbv)]
  cbv

/-- The normal form is what the renamed contraction is. -/
theorem normalize_integrand {k : IndexId}
    (hrename : rename [(1, .free k)] (contraction 1) = .ok (contraction k))
    (hproduct : BinaryOp.apply .product (entry 0 k) (entry 1 2) =
      .ok (binary .product (entry 0 k) (entry 1 2)))
    (hsum : UnaryOp.apply (.indexSum 2) (binary .product (entry 0 k) (entry 1 2)) =
      .ok (contraction k)) : normalize (integrand k) = .ok (contraction k) := by
  rw [normalize_eq, replaceWeights_of_weightFree (weightFree_integrand k)]
  show normalForm (integrand k) = _
  rw [integrand, normalForm_eq, step,
    if_neg (by simp [isModifiedTerminal, UnaryOp.isModifier]), normalForm_tensor]
  show (do normalForm (← (contraction 1).substitute [(1, .free k)])) = _
  rw [substitute_eq_rename, hrename]
  exact normalForm_contraction hproduct hsum

end Contraction

/-- At an index that the sum does not bind, the normal form is the sum at the index. -/
theorem normalize_value_contraction :
    normalize (Contraction.integrand 3) = .ok (Contraction.contraction 3) ∧
      (Contraction.contraction 3).free = (Contraction.integrand 3).free ∧
      ∀ σ : Env, (Contraction.contraction 3).value
          ((Model.rational (fun _ _ => 0) fun _ _ _ _ _ => 0).withLeaves fun e =>
            if e.core = (Contraction.vector 0).core then 2 else 3) [] σ =
        (Contraction.integrand 3).value
          ((Model.rational (fun _ _ => 0) fun _ _ _ _ _ => 0).withLeaves fun e =>
            if e.core = (Contraction.vector 0).core then 2 else 3) [] σ := by
  have h := Contraction.normalize_integrand (k := 3) (by with_unfolding_all rfl) (by cbv) (by cbv)
  obtain ⟨-, hfree, hvalue⟩ := normalize_value Model.rational_exact Model.rational_exactQuotients
    Model.rational_exactFunctions
    (balances_core fun t => if t = (Contraction.vector 0).core then 2 else 3)
    (Contraction.built_integrand (by cbv)) (Contraction.integrand_integrand 3)
    (Contraction.weightFree_integrand 3)
    (uncaptured_of_separated Contraction.separated_integrand) h
  exact ⟨h, hfree, fun σ => hvalue [] σ (by cbv)⟩

/-- At the index that the sum binds, the normal form has lost the index. -/
theorem normalize_value_capture :
    Built (Contraction.integrand 2) ∧ Integrand (Contraction.integrand 2) ∧
      WeightFree (Contraction.integrand 2) ∧
      normalize (Contraction.integrand 2) = .ok (Contraction.contraction 2) ∧
      (Contraction.integrand 2).free = [⟨2, 2⟩] ∧ (Contraction.contraction 2).free = [] :=
  ⟨Contraction.built_integrand (by cbv), Contraction.integrand_integrand 2,
    Contraction.weightFree_integrand 2,
    Contraction.normalize_integrand (by with_unfolding_all rfl) (by cbv) (by cbv), by cbv, by cbv⟩

end WeakForm.Expr
