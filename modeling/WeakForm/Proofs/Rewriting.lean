import WeakForm.Proofs.NormalForm

/-!
# What rewriting keeps

Substitution, replacement, normalization and the selection of list items change an
expression in one way only: they take it apart into operands and apply constructors to what
they have. So a property that passes from an expression to its operands, and from operands
to whatever a constructor makes of them, holds of every result of these passes. Being
canonical is such a property, and so is to be without quadrature weights.

* `Closed`, `closed_of_nodes` — properties that operands inherit and constructors keep;
* `Closed.rename`, `Closed.replace`, `Closed.balance`, `Closed.resolve` — the passes;
* `Closed.normalForm`, `Closed.normalize` — what normalization keeps;
* `canonical_closed`, `weightFree_closed` — two closed properties.
-/

namespace WeakForm.Expr

variable {R : Type} [Scalar R]

/-- A property that operands inherit, that the constructors keep and that all zeros have. -/
structure Closed (Q : Expr R → Prop) : Prop where
  operand : ∀ {e a : Expr R}, Q e → a ∈ e.operands → Q a
  unary : ∀ {op : UnaryOp} {a r : Expr R}, Q a → op.apply a = .ok r → Q r
  binary : ∀ {op : BinaryOp} {a b r : Expr R}, Q a → Q b → op.apply a b = .ok r → Q r
  stack : ∀ {items : List (Expr R)} {r : Expr R}, (∀ item ∈ items, Q item) →
    stack items = .ok r → Q r
  zero : ∀ {shape : List Nat} {free : FreeIndices} {r : Expr R}, zeroOver shape free = .ok r → Q r

/-- A constructor gives back an operand, or makes a constant, or a node over its operands. -/
theorem closed_of_nodes {Q : Expr R → Prop}
    (hoperand : ∀ {e a : Expr R}, Q e → a ∈ e.operands → Q a)
    (hconstant : ∀ {e : Expr R}, e.isConstantValue → Q e)
    (hnode : ∀ {e : Expr R}, e.operands ≠ [] → (∀ a ∈ e.operands, Q a) → Q e) : Closed Q where
  operand := hoperand
  unary ha h := by
    -- an operator folds to its operand, to a constant, or builds its node
    rcases unary_outcome h with rfl | hconst | rfl
    · exact ha
    · exact hconstant hconst
    · exact hnode (List.cons_ne_nil _ _) (List.forall_mem_singleton.mpr ha)
  binary ha hb h := by
    -- a binary operator also to its second operand
    rcases binary_outcome h with rfl | rfl | hconst | rfl
    · exact ha
    · exact hb
    · exact hconstant hconst
    · exact hnode (List.cons_ne_nil _ _)
        (List.forall_mem_cons.mpr ⟨ha, List.forall_mem_singleton.mpr hb⟩)
  stack hi h := by
    -- a list of zeros is a zero
    obtain ⟨first, rest, rfl, -, hr⟩ := stack_built h
    cases hr with
    | zero => exact hconstant rfl
    | node => exact hnode (List.cons_ne_nil _ _) hi
  zero h := by
    unfold zeroOver at h
    split at h
    · cases h
      exact hconstant rfl
    · cases h

/-! ## Canonical expressions and expressions without weights -/

/-- The operands of a canonical expression are canonical, and so is what is built. -/
theorem canonical_closed : Closed (Canonical (R := R)) where
  operand he ha := by
    cases he with
    | leaf => cases ha
    | unary hc => rwa [List.mem_singleton.mp ha]
    | binary hca hcb =>
      rcases List.mem_pair.mp ha with rfl | rfl
      · exact hca
      · exact hcb
    | listTensor hi => exact hi _ ha
  unary := canonical_unary
  binary := canonical_binary
  stack := canonical_stack
  zero h := (Built.zeroOver h).canonical

omit [Scalar R] in
/-- A constant has no weights. -/
theorem weightFree_constant {e : Expr R} (h : e.isConstantValue) : WeightFree e := by
  unfold isConstantValue at h
  split at h
  · exact .leaf fun g hg => nomatch hg
  · exact .leaf fun g hg => nomatch hg
  · cases h

/-- A literal has no weights. -/
theorem weightFree_literal (v : Literal R) : WeightFree (literal v) := by
  refine weightFree_constant ?_
  unfold literal
  split
  · rfl
  · rfl

/-- No constructor makes a weight. -/
theorem weightFree_closed : Closed (WeightFree (R := R)) := by
  refine closed_of_nodes WeightFree.operand weightFree_constant fun {e} hnode h => ?_
  cases e with
  | leaf t => exact absurd rfl hnode
  | unary op a => exact .unary (h a List.mem_cons_self)
  | binary op a b =>
    exact .binary (h a List.mem_cons_self) (h b (List.mem_cons_of_mem _ List.mem_cons_self))
  | listTensor items => exact .listTensor h

/-! ## Weights -/

/-- What a weight is replaced by. -/
def weightToOne : Expr R → Option (Expr R)
  | leaf (.geometry g) => if g.kind = .quadratureWeight then some (real Scalar.one) else none
  | _ => none

/-- Weights are replaced by one. -/
theorem eq_one_of_weightToOne {e s : Expr R} (h : weightToOne e = some s) :
    s = real Scalar.one := by
  unfold weightToOne at h
  split at h
  · split at h
    · exact (Option.some.inj h).symm
    · cases h
  · cases h

/-- Replacing weights is a pass of replacements. -/
theorem replaceWeights_eq [DecidableEq R] (e : Expr R) :
    e.replaceWeights = replace weightToOne e := by
  rw [replaceWeights, replaceTerminals, replaceNodes_eq_replace]
  congr 1
  funext s
  cases s with
  | leaf t => cases t <;> rfl
  | unary | binary | listTensor => rfl

namespace Closed

variable {Q : Expr R → Prop} {e a r : Expr R}

theorem items {items : List (Expr R)} (hQ : Closed Q) (h : Q (listTensor items)) :
    ∀ item ∈ items, Q item :=
  fun _ hmem => hQ.operand h hmem

/-! ## Substitution -/

/-- Only the zeros of the result are new. Everything else is put together from operands. -/
theorem rename {σ : Renaming} (hQ : Closed Q) (he : Q e) (h : rename σ e = .ok r) : Q r := by
  induction e generalizing σ r with
  | leaf t =>
    rw [Expr.rename.eq_def] at h
    -- only a zero has indices of its own
    split at h
    · cases t with
      | zero shape free => exact hQ.zero h
      | argument | coefficient | geometry | literal =>
        cases h
        exact he
    · cases h
      exact he
  | unary op a ih =>
    rw [Expr.rename.eq_def] at h
    split at h
    -- the operator is built anew over the renamed operand
    · obtain ⟨a', ha, h⟩ := bind_eq_ok.mp h
      exact hQ.unary (ih (hQ.operand he List.mem_cons_self) ha) h
    · -- an expression without renamed indices stays as it is
      cases h
      exact he
  | binary op a b iha ihb =>
    rw [Expr.rename.eq_def] at h
    split at h
    · obtain ⟨a', ha, h⟩ := bind_eq_ok.mp h
      obtain ⟨b', hb, h⟩ := bind_eq_ok.mp h
      have ha' := iha (hQ.operand he List.mem_cons_self) ha
      have hb' := ihb (hQ.operand he (List.mem_cons_of_mem _ List.mem_cons_self)) hb
      exact hQ.binary ha' hb' h
    · cases h
      exact he
  | listTensor items ih =>
    rw [Expr.rename.eq_def] at h
    split at h
    · obtain ⟨items', hitems, h⟩ := bind_eq_ok.mp h
      rw [renameAll_eq_mapM] at hitems
      -- the list is built anew from the renamed items
      refine hQ.stack (fun item hm => ?_) h
      obtain ⟨a, hmem, ha⟩ := mem_of_mapM hitems hm
      exact ih a hmem (hQ.items he a hmem) ha
    · cases h
      exact he

variable [DecidableEq R]

/-- A class closed under the constructors is closed under substitution. -/
theorem substitute {σ : Renaming} (hQ : Closed Q) (he : Q e) (h : e.substitute σ = .ok r) :
    Q r := by
  rw [substitute_eq_rename] at h
  exact hQ.rename he h

/-! ## Replacement -/

/-- Applying an operator again stays in a closed class. -/
theorem reapply {op : UnaryOp} {a' : Expr R} (hQ : Closed Q) (he : Q (.unary op a)) (ha : Q a')
    (h : reapply op a a' = .ok r) : Q r := by
  unfold Expr.reapply at h
  split at h
  · cases h
    exact he
  · exact hQ.unary ha h

/-- Applying a binary operator again stays in a closed class. -/
theorem reapply₂ {op : BinaryOp} {b a' b' : Expr R} (hQ : Closed Q) (he : Q (.binary op a b))
    (ha : Q a') (hb : Q b') (h : reapply₂ op a b a' b' = .ok r) : Q r := by
  unfold Expr.reapply₂ at h
  split at h
  · cases h
    exact he
  · exact hQ.binary ha hb h

/-- Building a list again stays in a closed class. -/
theorem restack {items items' : List (Expr R)} (hQ : Closed Q) (he : Q (.listTensor items))
    (hi : ∀ item ∈ items', Q item) (h : restack items items' = .ok r) : Q r := by
  unfold Expr.restack at h
  split at h
  · cases h
    exact he
  · exact hQ.stack hi h

/-- A replacement puts in what the table holds, and builds the nodes around it again. -/
theorem replace {f : Expr R → Option (Expr R)} (hQ : Closed Q) (hf : ∀ s s', f s = some s' → Q s')
    (he : Q e) (h : replace f e = .ok r) : Q r := by
  replace h := replaceRun_of_replace h
  -- The rules of a replacement build with the smart constructors, under which `Q` is closed.
  induction h with
  | exchange hs => exact hf _ _ hs
  | leaf => exact he
  | unary _ _ hr ih => exact hQ.reapply he (ih (hQ.operand he List.mem_cons_self)) hr
  | binary _ _ _ hr iha ihb =>
    have ha' := iha (hQ.operand he List.mem_cons_self)
    have hb' := ihb (hQ.operand he (List.mem_cons_of_mem _ List.mem_cons_self))
    exact hQ.reapply₂ he ha' hb' hr
  | @stack items _ _ _ hl _ hr ih =>
    refine hQ.restack he (fun item hm => ?_) hr
    -- each item is replaced by the one in its place
    obtain ⟨s, hmem, hzip⟩ := exists_left_of_zip hl hm
    exact ih _ _ hzip (hQ.items he s hmem)

/-- Weights are replaced by one. -/
theorem replaceWeights (hQ : Closed Q) (hone : Q (real Scalar.one)) (he : Q e)
    (h : e.replaceWeights = .ok r) : Q r := by
  rw [replaceWeights_eq] at h
  exact hQ.replace (fun s s' hs => eq_one_of_weightToOne hs ▸ hone) he h

/-! ## Selection of list items -/

omit [DecidableEq R] in
/-- A selected item is in a closed class. -/
theorem selectItem {items : List (Expr R)} {is : List Index} (hQ : Closed Q)
    (hi : ∀ item ∈ items, Q item) (h : selectItem? items is = some (.ok r)) : Q r := by
  obtain ⟨p, rest, item, -, hitem, happly⟩ := selectItem_built h
  exact hQ.unary (hi item (List.mem_of_getElem? hitem)) happly

omit [DecidableEq R] in
theorem item? (hQ : Closed Q) (he : Q e) (h : item? e = some (.ok r)) : Q r := by
  unfold Expr.item? at h
  split at h
  · exact hQ.selectItem (hQ.items (hQ.operand he List.mem_cons_self)) h
  · cases h

/-- Selecting items stays in a closed class. -/
theorem resolve (hQ : Closed Q) (he : Q e) (h : resolve e = .ok r) : Q r := by
  rw [← selectionRun_iff] at h
  induction h with
  | item hitem _ ih => exact ih (hQ.item? he hitem)
  | leaf => exact he
  | unary _ _ hr ih => exact hQ.reapply he (ih (hQ.operand he List.mem_cons_self)) hr
  | binary _ _ hr iha ihb =>
    have ha' := iha (hQ.operand he List.mem_cons_self)
    have hb' := ihb (hQ.operand he (List.mem_cons_of_mem _ List.mem_cons_self))
    exact hQ.reapply₂ he ha' hb' hr
  | stack hl _ hr ih =>
    -- each item is resolved in its place
    refine hQ.restack he (fun item hm => ?_) hr
    obtain ⟨s, hmem, hzip⟩ := exists_left_of_zip hl hm
    exact ih _ _ hzip (hQ.items he s hmem)

/-! ## Balancing -/

omit [DecidableEq R]

/-- Applying operators in turn stays in a closed class. -/
theorem applyAll {ops : List UnaryOp} (hQ : Closed Q) (ha : Q a) (h : applyAll ops a = .ok r) :
    Q r := by
  induction ops using List.reverseRecOn generalizing r with
  | nil =>
    cases h
    exact ha
  | append_singleton ops op ih =>
    obtain ⟨b, hb, hr⟩ := applyAll_concat.mp h
    exact hQ.unary (ih hb) hr

/-- The terminal of a chain is in a closed class. -/
theorem terminal {t : Terminal R} {ops : List UnaryOp} (hQ : Closed Q) (h : ChainOf t ops e)
    (he : Q e) : Q (leaf t) := by
  induction h with
  | terminal => exact he
  | wrap ha hop ih => exact ih (hQ.operand he List.mem_cons_self)

/-- Balancing stays in a closed class. -/
theorem balance (hQ : Closed Q) (he : Q e) (h : balance e = .ok r) : Q r := by
  unfold Expr.balance at h
  split at h
  · cases h
    exact he
  · next ops t hchain =>
    -- Balancing only applies the operators of the chain again, to the terminal below them.
    have ht : Q (leaf t) := hQ.terminal (chainOf_of_chain? hchain) he
    split at h
    · cases h
      exact he
    · dsimp only at h
      split at h
      · cases h
        exact he
      · exact hQ.applyAll ht h

/-- Finishing a node stays in a closed class. -/
theorem finish (hQ : Closed Q) (he : Q e) (h : finish e = .ok r) : Q r := by
  unfold Expr.finish at h
  split at h
  · exact hQ.balance he h
  · cases h
    exact he

/-- Indexing a normal form stays in a closed class. -/
theorem indexedOver {is : List Index} (hQ : Closed Q) (ha : Q a) (h : indexedOver a is = .ok r) :
    Q r := by
  obtain ⟨b, hb, h⟩ := bind_eq_ok.mp h
  have hb : UnaryOp.apply (.indexed is) a = .ok b := hb
  split at h
  · cases h
    exact hQ.unary ha hb
  · exact hQ.finish (hQ.unary ha hb) h

/-- Reducing an indexing stays in a closed class. -/
theorem reduced [DecidableEq R] {is : List Index} (hQ : Closed Q) (ha : Q a)
    (h : reduced? a is = some (.ok r)) : Q r := by
  rcases reduced?_built h with ⟨ids, body, rfl, hr⟩ | ⟨items, rfl, hr⟩
  · rw [← substitute_eq_rename] at hr
    exact hQ.substitute (hQ.operand ha List.mem_cons_self) hr
  · exact hQ.selectItem (hQ.items ha) hr

/-! ## Normalization -/

variable [DecidableEq R]

/-- A run of the normalization stays in a closed class. -/
theorem normalRun (hQ : Closed Q) (he : Q e) (h : NormalRun e r) : Q r := by
  induction h with
  | chain hm h => exact hQ.balance he h
  | label ha ih => exact ih (hQ.operand he List.mem_cons_self)
  | plain hop hlabel ha hc hr ih =>
    exact hQ.finish (hQ.unary (ih (hQ.operand he List.mem_cons_self)) hc) hr
  -- an indexing that was reduced goes on with what it was reduced to
  | reduced ha hb hr iha ihr =>
    exact ihr (hQ.reduced (iha (hQ.operand he List.mem_cons_self)) hb)
  | indexed ha hb hr ih => exact hQ.indexedOver (ih (hQ.operand he List.mem_cons_self)) hr
  | binary ha hb hc hr iha ihb =>
    have ha' := iha (hQ.operand he List.mem_cons_self)
    have hb' := ihb (hQ.operand he (List.mem_cons_of_mem _ List.mem_cons_self))
    exact hQ.finish (hQ.binary ha' hb' hc) hr
  | @stack items items' c r hl hi hc hr ih =>
    refine hQ.finish (hQ.stack (fun item hm => ?_) hc) hr
    -- each item is the normal form of the one in its place
    obtain ⟨s, hmem, hzip⟩ := exists_left_of_zip hl hm
    exact ih _ _ hzip (hQ.items he s hmem)

theorem normalForm (hQ : Closed Q) (he : Q e) (h : normalForm e = .ok r) : Q r :=
  hQ.normalRun he (normalRun_of_normalForm h)

/-- Normalization stays in a closed class that contains one. -/
theorem normalize (hQ : Closed Q) (hone : Q (real Scalar.one)) (he : Q e)
    (h : normalize e = .ok r) : Q r := by
  rw [normalize_eq] at h
  obtain ⟨e', he', h⟩ := bind_eq_ok.mp h
  exact hQ.normalForm (hQ.replaceWeights hone he he') h

end Closed

end WeakForm.Expr
