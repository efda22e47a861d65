import WeakForm.Proofs.Typing

/-!
# Normalization reaches a normal form

A normal form has no labels and no weights, indexes neither a component tensor nor a list
tensor at a fixed position, and all its modifier chains are in balance. The pass visits what
it has made wherever a rewrite could expose another: the body of a reduced tensor and the
item of a list are normalized again, and what a fold leaves behind is balanced. So whatever
it returns is a normal form, and it returns a normal form as it is.

* `balance_balance` — a balanced chain is in balance;
* `Normal`, `normal_of_normalRun` — normal forms, and that the pass returns one;
* `normalForm_of_normal` — a normal form is a fixed point of the pass;
* `weightFree_replace` — replacement leaves no weight;
* `InNormalForm`, `normalize_reaches` — normalization reaches a normal form.
-/

namespace WeakForm.Expr

variable {R : Type}

/-! ## Balanced chains -/

section Chains

variable {t : Terminal R} {ops : List UnaryOp} {e r : Expr R}

/-- What is read off a chain is its modifiers and its terminal. -/
theorem ChainOf.chainBelow (h : ChainOf t ops e) (outer : List UnaryOp) :
    chainBelow outer e = some (ops ++ outer, t) := by
  induction h generalizing outer with
  | terminal => rfl
  | wrap _ hop ih => rw [Expr.chainBelow, if_pos hop, ih, List.append_assoc, List.singleton_append]

/-- The modifiers that are read off a chain are those it was made with. -/
theorem ChainOf.chain? (h : ChainOf t ops e) : e.chain? = some (ops, t) := by
  rw [Expr.chain?, h.chainBelow, List.append_nil]

/-- A chain over a terminal that varies is no constant. -/
theorem ChainOf.notConstant (h : ChainOf t ops e) (hconst : (leaf t).isConstantValue = false) :
    e.isConstantValue = false := by
  cases h with
  | terminal => exact hconst
  | wrap => rfl

variable [Scalar R]

/-- Modifiers that do not fold make a chain. -/
theorem chainOf_applyAll (hconst : (leaf t).isConstantValue = false)
    (hw : ∀ op ∈ ops, Wraps t op) (h : applyAll ops (leaf t) = .ok r) : ChainOf t ops r := by
  -- from the terminal outwards
  induction ops using List.reverseRecOn generalizing r with
  | nil =>
    cases h
    exact .terminal
  | append_singleton ops op ih =>
    obtain ⟨a, ha, hr⟩ := applyAll_concat.mp h
    have hchain := ih (fun f hf => hw f (List.mem_append_left _ hf)) ha
    have hlast := hw op (List.mem_append_right _ (List.mem_singleton.mpr rfl))
    rw [hlast.node (hchain.notConstant hconst) hchain.cellwise hr]
    exact hchain.wrap hlast.modifier

omit [Scalar R] in
/-- Sorted modifiers are sorted already. -/
theorem mergeSort_mergeSort (h : ∀ op ∈ ops, op.isModifier) :
    (ops.mergeSort UnaryOp.layerLE).mergeSort UnaryOp.layerLE =
      ops.mergeSort UnaryOp.layerLE := by
  have hsorted : ∀ op ∈ ops.mergeSort UnaryOp.layerLE, op.isModifier := fun op hop =>
    h op (UnaryOp.mem_mergeSort_layerLE.mp hop)
  rw [UnaryOp.mergeSort_layerLE hsorted, UnaryOp.mergeSort_layerLE h]
  exact List.mergeSort_of_pairwise
    (List.pairwise_mergeSort UnaryOp.inside_trans UnaryOp.inside_total ops)

/-- **A balanced chain is in balance.** -/
theorem balance_balance (hcan : Canonical e) (h : balance e = .ok r) : balance r = .ok r := by
  rcases balance_cases hcan with heq | ⟨t, ops, hs⟩
  · rw [heq] at h
    cases h
    exact heq
  · rw [hs.balanced] at h
    have hmod := hs.chain.isModifier
    have hsorted : ChainOf t (ops.mergeSort UnaryOp.layerLE) r :=
      chainOf_applyAll hs.varying hs.wraps_sorted h
    -- the sorted modifiers are sorted again, which leaves them as they are
    rw [balance, hsorted.chain?]
    show (if UnaryOp.gradientOfIndexed (ops.mergeSort UnaryOp.layerLE) then _ else _) = _
    rw [UnaryOp.gradientOfIndexed_mergeSort hmod, if_neg (by decide)]
    exact if_pos (mergeSort_mergeSort hmod)

theorem balance_leaf (t : Terminal R) : balance (leaf t) = .ok (leaf t) := by
  simp [balance, Expr.chain?, Expr.chainBelow, UnaryOp.gradientOfIndexed]

end Chains

/-! ## Normal forms -/

variable [Scalar R] [DecidableEq R] {a b e r : Expr R}

/-- Chains in balance, and operators over normal forms that are no chains. -/
inductive Normal : Expr R → Prop
  | chain {e : Expr R} (hm : e.isModifiedTerminal) (hb : balance e = .ok e) : Normal e
  | plain {op : UnaryOp} {a : Expr R} (hm : (unary op a).isModifiedTerminal = false)
      (hop : op.indices? = none) (hlabel : ∀ number, op ≠ .labelled number) (ha : Normal a) :
      Normal (unary op a)
  /-- An indexing that is not reduced. -/
  | indexed {is : List Index} {a : Expr R}
      (hm : (unary (.indexed is) a).isModifiedTerminal = false) (hb : reduced? a is = none)
      (ha : Normal a) : Normal (unary (.indexed is) a)
  | binary {op : BinaryOp} {a b : Expr R} (ha : Normal a) (hb : Normal b) : Normal (binary op a b)
  | listTensor {items : List (Expr R)} (hi : ∀ item ∈ items, Normal item) :
      Normal (listTensor items)

theorem normal_leaf (t : Terminal R) : Normal (leaf t) :=
  .chain rfl (balance_leaf t)

/-- Constants are normal. -/
theorem normal_constant (h : e.isConstantValue) : Normal e := by
  unfold isConstantValue at h
  split at h
  · exact normal_leaf _
  · exact normal_leaf _
  · cases h

/-- Chains are balanced at the end, and what is no chain has to be normal. -/
theorem normal_finish (hcan : Canonical e) (he : e.isModifiedTerminal = false → Normal e)
    (h : finish e = .ok r) : Normal r := by
  unfold finish at h
  split at h
  · next hc =>
    have hm : e.isModifiedTerminal := (Bool.and_eq_true_iff.mp hc).2
    exact .chain (chain_balance hm h) (balance_balance hcan h)
  · next hc =>
    cases h
    -- a terminal is normal, and any other expression that is no chain was so before
    cases e with
    | leaf t => exact normal_leaf t
    | unary op a =>
      refine he ?_
      simpa [isTerminal] using hc
    | binary | listTensor => exact he rfl

/-- An operator over a normal form is one, or folds into one. -/
theorem normal_plain {op : UnaryOp} (hcan : Canonical a) (ha : Normal a) (hop : op.indices? = none)
    (hlabel : ∀ number, op ≠ .labelled number) (hc : op.apply a = .ok e) (h : finish e = .ok r) :
    Normal r := by
  refine normal_finish (canonical_unary hcan hc) (fun hm => ?_) h
  rcases unary_outcome hc with rfl | hconst | rfl
  · exact ha
  · exact normal_constant hconst
  · exact .plain hm hop hlabel ha

/-- An indexing of a normal form that is not reduced is one, or folds into one. -/
theorem normal_indexedOver {is : List Index} (hcan : Canonical a) (ha : Normal a)
    (hb : reduced? a is = none) (h : indexedOver a is = .ok r) : Normal r := by
  obtain ⟨c, hc, h⟩ := bind_eq_ok.mp h
  have hc : UnaryOp.apply (.indexed is) a = .ok c := hc
  have hnormal : c.isModifiedTerminal = false → Normal c := by
    intro hm
    rcases unary_outcome hc with rfl | hconst | rfl
    -- the indexing was folded, so what is left is the operand, a constant or a chain
    · exact ha
    · exact normal_constant hconst
    · exact .indexed hm hb ha
  split at h
  · -- an indexing of a list is not a chain
    cases h
    rcases unary_outcome hc with rfl | hconst | rfl
    · exact ha
    · exact normal_constant hconst
    · exact hnormal rfl
  · exact normal_finish (canonical_unary hcan hc) hnormal h

/-- **What the pass returns is a normal form.** -/
theorem normal_of_normalRun (hcan : Canonical e) (h : NormalRun e r) : Normal r := by
  -- every shape that a run of the pass can end in
  induction h with
  | chain hm h => exact .chain (chain_balance hm h) (balance_balance hcan h)
  | label _ ih => exact ih (canonical_closed.operand hcan List.mem_cons_self)
  | plain hop hlabel ha hc hr ih =>
    have hcana := canonical_closed.operand hcan List.mem_cons_self
    exact normal_plain (canonical_closed.normalRun hcana ha) (ih hcana) hop hlabel hc hr
  | reduced ha hb _ iha ihr =>
    -- the pass went on with what the indexing was reduced to
    have hcana := canonical_closed.operand hcan List.mem_cons_self
    exact ihr (canonical_closed.reduced (canonical_closed.normalRun hcana ha) hb)
  | indexed ha hb hr ih =>
    have hcana := canonical_closed.operand hcan List.mem_cons_self
    exact normal_indexedOver (canonical_closed.normalRun hcana ha) (ih hcana) hb hr
  | binary ha hb hc hr iha ihb =>
    have hcana := canonical_closed.operand hcan List.mem_cons_self
    have hcanb := canonical_closed.operand hcan (List.mem_cons_of_mem _ List.mem_cons_self)
    have hcana' := canonical_closed.normalRun hcana ha
    have hcanb' := canonical_closed.normalRun hcanb hb
    refine normal_finish (canonical_binary hcana' hcanb' hc) (fun _ => ?_) hr
    rcases binary_outcome hc with rfl | rfl | hconst | rfl
    · exact iha hcana
    · exact ihb hcanb
    · exact normal_constant hconst
    · exact .binary (iha hcana) (ihb hcanb)
  | stack hl hi hc hr ih =>
    -- each item is the normal form of the one in its place
    have hitem : ∀ item' ∈ _, Canonical item' ∧ Normal item' := fun item' hm => by
      obtain ⟨item, hmem, hzip⟩ := exists_left_of_zip hl hm
      have hcanitem := canonical_closed.items hcan item hmem
      exact ⟨canonical_closed.normalRun hcanitem (hi _ _ hzip), ih _ _ hzip hcanitem⟩
    refine normal_finish (canonical_stack (fun item hm => (hitem item hm).1) hc) (fun _ => ?_) hr
    obtain ⟨first, rest, rfl, -, hstacked⟩ := stack_built hc
    cases hstacked with
    | zero => exact normal_leaf _
    | node => exact .listTensor fun item hm => (hitem item hm).2

/-! ## Fixed points -/

omit [DecidableEq R] in
theorem finish_of_not_chain (h : e.isModifiedTerminal = false) : finish e = .ok e := by
  rw [finish, h, Bool.and_false, if_neg Bool.false_ne_true]

omit [DecidableEq R] in
/-- A modifier is applied to what its operand became. -/
theorem stepPlain_ok {op : UnaryOp} (hlabel : ∀ number, op ≠ .labelled number) :
    stepPlain op (.ok a) = (do finish (← op.apply a)) := by
  cases op with
  | labelled number => exact absurd rfl (hlabel number)
  | math | abs | indexSum | indexed | componentTensor | restricted | grad | referenceGrad
    | spatialDerivative | averaged => rfl

/-- **A normal form is a fixed point of the pass.** -/
theorem normalForm_of_normal (hcan : Canonical e) (h : Normal e) : normalForm e = .ok e := by
  induction h with
  | chain hm hb => rw [normalForm_chain hm, hb]
  -- the operand is normal, so the pass leaves it and applies the operator again
  | @plain op a hm hop hlabel _ ih =>
    cases hcan with
    | unary hca happly =>
      rw [normalForm_eq, step, if_neg (by rw [hm]; decide), stepUnary, hop, ih hca]
      show stepPlain op (.ok a) = _
      rw [stepPlain_ok hlabel, happly]
      exact finish_of_not_chain hm
  | @indexed is a hm hb _ ih =>
    cases hcan with
    | unary hca happly =>
      have happly : a.index is = .ok (.unary (.indexed is) a) := happly
      rw [normalForm_eq, step, if_neg (by rw [hm]; decide), ih hca]
      show stepIndexed normalForm is a = _
      rw [stepIndexed, hb]
      show indexedOver a is = _
      rw [indexedOver, happly]
      simp only [bind, Except.bind]
      split
      · rfl
      · exact finish_of_not_chain hm
  | binary _ _ iha ihb =>
    cases hcan with
    | binary hca hcb happly =>
      rw [normalForm_eq, step, if_neg (by simp [isModifiedTerminal]), iha hca, ihb hcb]
      simp only [bind, Except.bind, happly]
      exact finish_of_not_chain rfl
  | @listTensor items _ ih =>
    cases hcan with
    | listTensor hci happly =>
      have hitems : items.mapM normalForm = .ok items :=
        mapM_eq_ok.mpr (List.forall₂_same.mpr fun item hm => ih item hm (hci item hm))
      rw [normalForm_eq, step, if_neg (by simp [isModifiedTerminal]), hitems]
      simp only [bind, Except.bind, happly]
      exact finish_of_not_chain rfl

/-! ## Weights -/

/-- Replacing weights leaves none. -/
theorem weightFree_reapply {op : UnaryOp} {a' : Expr R} (ha : WeightFree a')
    (h : reapply op a a' = .ok r) : WeightFree r := by
  unfold reapply at h
  split at h
  · next heq =>
    cases h
    exact .unary (heq ▸ ha)
  · exact weightFree_closed.unary ha h

/-- Nor are there any where both operands are rebuilt. -/
theorem weightFree_reapply₂ {op : BinaryOp} {a' b' : Expr R} (ha : WeightFree a')
    (hb : WeightFree b') (h : reapply₂ op a b a' b' = .ok r) : WeightFree r := by
  unfold reapply₂ at h
  split at h
  · next heq =>
    cases h
    exact .binary (heq.1 ▸ ha) (heq.2 ▸ hb)
  · exact weightFree_closed.binary ha hb h

/-- Nor in rebuilt list items. -/
theorem weightFree_restack {items items' : List (Expr R)}
    (hitems : ∀ item ∈ items', WeightFree item) (h : restack items items' = .ok r) :
    WeightFree r := by
  unfold restack at h
  split at h
  · next heq =>
    cases h
    exact .listTensor (heq ▸ hitems)
  · exact weightFree_closed.stack hitems h

/-- Where every terminal that stays is no weight, and nothing that is put in has one. -/
theorem weightFree_replace {f : Expr R → Option (Expr R)}
    (hf : ∀ s s', f s = some s' → WeightFree s')
    (hleaf : ∀ t, f (leaf t) = none → WeightFree (leaf t)) (h : replace f e = .ok r) :
    WeightFree r := by
  replace h := replaceRun_of_replace h
  induction h with
  | exchange hs => exact hf _ _ hs
  | leaf hkept => exact hleaf _ hkept
  | unary _ _ hr ih => exact weightFree_reapply ih hr
  | binary _ _ _ hr iha ihb => exact weightFree_reapply₂ iha ihb hr
  -- item by item
  | stack _ hl _ hr ih =>
    refine weightFree_restack (fun item hm => ?_) hr
    obtain ⟨s, -, hzip⟩ := exists_left_of_zip hl hm
    exact ih _ _ hzip

/-- Weights are replaced, so the pass sees none. -/
theorem weightFree_replaceWeights (h : e.replaceWeights = .ok r) : WeightFree r := by
  rw [replaceWeights_eq] at h
  refine weightFree_replace (fun s s' hs => ?_) (fun t ht => .leaf ?_) h
  · rw [eq_one_of_weightToOne hs]
    exact weightFree_literal _
  · -- a weight does not stay
    rintro g rfl hk
    rw [weightToOne, if_pos hk] at ht
    cases ht

/-! ## What normalization returns -/

/-- A modifier chain in an expression that is not the operand of another chain. -/
structure OutermostChain (s e : Expr R) : Prop where
  chain : s.isModifiedTerminal
  outermost : s = e ∨ ∃ p, Subexpression p e ∧ s ∈ p.operands ∧ p.isModifiedTerminal = false

/-- An expression that normalization has nothing left to do in. -/
structure InNormalForm (e : Expr R) : Prop where
  unlabelled : ∀ number a, ¬Subexpression (unary (.labelled number) a) e
  weightless : ∀ d, ¬Subexpression (geometry ⟨.quadratureWeight, d⟩) e
  tensors : ∀ is ids a, ¬Subexpression (unary (.indexed is) (unary (.componentTensor ids) a)) e
  items : ∀ p is items, ¬Subexpression (unary (.indexed (.fixed p :: is)) (listTensor items)) e
  balanced : ∀ s, OutermostChain s e → balance s = .ok s

/-- The operands of a normal form that is no chain are normal forms. -/
theorem Normal.operand (h : Normal e) (hm : e.isModifiedTerminal = false) (ha : a ∈ e.operands) :
    Normal a := by
  cases h with
  | chain hm' =>
    rw [hm] at hm'
    cases hm'
  | plain _ _ _ hn => rwa [List.mem_singleton.mp ha]
  | indexed _ _ hn => rwa [List.mem_singleton.mp ha]
  | binary hna hnb =>
    rcases List.mem_pair.mp ha with rfl | rfl
    · exact hna
    · exact hnb
  -- an item of a list tensor
  | listTensor hi => exact hi a ha

omit [DecidableEq R] [Scalar R] in
/-- Below a chain there are chains. -/
theorem isModifiedTerminal_operand (h : e.isModifiedTerminal) (ha : a ∈ e.operands) :
    a.isModifiedTerminal := by
  cases e with
  | leaf => cases ha
  | unary op b =>
    rw [List.mem_singleton.mp ha]
    exact (Bool.and_eq_true_iff.mp h).2
  | binary | listTensor => cases h

/-- Every node of a normal form is a normal form, or part of a chain. -/
theorem Normal.subexpression (h : Normal e) (ha : Subexpression a e) :
    a.isModifiedTerminal ∨ Normal a := by
  -- below a chain there are only chains
  suffices hor : (e.isModifiedTerminal ∨ Normal e) → a.isModifiedTerminal ∨ Normal a from
    hor (.inr h)
  clear h
  induction ha with
  | refl => exact id
  | @operand b e hb _ ih =>
    -- an operand of a chain is a chain
    intro he
    refine ih ?_
    by_cases hm : e.isModifiedTerminal
    · exact .inl (isModifiedTerminal_operand hm hb)
    · rcases he with he | he
      · exact absurd he hm
      · exact .inr (he.operand (by simpa using hm) hb)

/-- At a position on its leading axis, an indexed list is reduced to the item there. -/
theorem reduced?_listTensor_ne_none {p : Nat} {is : List Index} {items : List (Expr R)}
    (hcan : Canonical (unary (.indexed (.fixed p :: is)) (.listTensor items))) :
    reduced? (.listTensor items) (.fixed p :: is) ≠ none := by
  obtain ⟨-, hbound⟩ := hcan.consistent.positions _ _ rfl
  cases hcan with
  | unary hca _ =>
    cases hca with
    | listTensor _ hstack =>
      obtain ⟨first, rest, hitems, -, -⟩ := stack_built hstack
      -- the leading axis has a position for each item
      have hp : p < items.length := by
        refine hbound p items.length ?_
        rw [hitems] at hstack ⊢
        rw [(attributes_stack hstack).1]
        exact List.mem_cons_self
      rw [reduced?, selectItem?, List.getElem?_eq_getElem hp, Option.map_some]
      exact Option.some_ne_none _

/-- A canonical normal form without weights is in normal form. -/
theorem Normal.inNormalForm (hcan : Canonical e) (hw : WeightFree e) (h : Normal e) :
    InNormalForm e where
  unlabelled number a ha := by
    rcases h.subexpression ha with hm | hn
    · cases hm
    · cases hn with
      | chain hm => cases hm
      | plain _ _ hlabel => exact hlabel number rfl
  weightless d ha := by
    cases weightFree_closed.subexpression hw ha with
    | leaf hleaf => exact hleaf _ rfl rfl
  tensors is ids a ha := by
    -- the operand of the indexing is no modifier, so the indexing would be reduced
    rcases h.subexpression ha with hm | hn
    · cases hm
    · cases hn with
      | chain hm => cases hm
      | plain _ hop => cases hop
      | indexed _ hb => cases hb
  items p is items ha := by
    rcases h.subexpression ha with hm | hn
    · cases hm
    · cases hn with
      | chain hm => cases hm
      | plain _ hop => cases hop
      | indexed _ hb =>
        exact absurd hb (reduced?_listTensor_ne_none (canonical_closed.subexpression hcan ha))
  balanced s hs := by
    have hnormal : Normal s := by
      rcases hs.outermost with rfl | ⟨p, hp, hsp, hm⟩
      · exact h
      · rcases h.subexpression hp with hpm | hpn
        · rw [hm] at hpm
          cases hpm
        · exact hpn.operand hm hsp
    have hchain := hs.chain
    cases hnormal with
    | chain _ hb => exact hb
    | plain hm | indexed hm =>
      rw [hm] at hchain
      cases hchain
    | binary | listTensor => cases hchain

/-- **Normalization reaches a normal form**: what it returns has no label and no weight, no
indexed tensor that could be reduced and no chain out of balance, and is returned as it is when
normalized again. -/
theorem normalize_reaches (he : Obtained e) (h : normalize e = .ok r) :
    InNormalForm r ∧ normalize r = .ok r := by
  have hcan : Canonical r := obtained_canonical (.normalize he h)
  rw [normalize_eq] at h
  obtain ⟨e', he', h⟩ := bind_eq_ok.mp h
  have hcan' : Canonical e' := by
    refine canonical_closed.replaceWeights ?_ (obtained_canonical he) he'
    exact canonical_literal _
  -- the run makes a normal form, and no weight comes back
  have hnormal : Normal r := normal_of_normalRun hcan' (normalRun_of_normalForm h)
  have hweights : WeightFree r := weightFree_closed.normalForm (weightFree_replaceWeights he') h
  refine ⟨hnormal.inNormalForm hcan hweights, ?_⟩
  rw [normalize_eq, replaceWeights_of_weightFree hweights]
  exact normalForm_of_normal hcan hnormal

/-- The sum that a contracted tensor is reduced to is in normal form. -/
theorem normalize_reaches_contraction :
    normalize (Contraction.integrand 3) = .ok (Contraction.contraction 3) ∧
      InNormalForm (Contraction.contraction 3) ∧
      normalize (Contraction.contraction 3) = .ok (Contraction.contraction 3) := by
  have hbuilt : Built (Contraction.integrand 3) := Contraction.built_integrand (by cbv)
  have hnormal : normalize (Contraction.integrand 3) = .ok (Contraction.contraction 3) :=
    Contraction.normalize_integrand (by with_unfolding_all rfl) (by cbv) (by cbv)
  exact ⟨hnormal, normalize_reaches hbuilt.obtained hnormal⟩

end WeakForm.Expr
