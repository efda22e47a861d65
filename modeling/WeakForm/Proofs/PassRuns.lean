import WeakForm.Expr.Normalization
import WeakForm.Proofs.Outcome

/-!
# Runs of the rewriting passes

Replacement, the selection of list items and normalization take an expression apart and build
what is above the parts again. A run of such a pass is a tree with one node per call that
returns. Two of the passes call themselves on expressions that they have just made, which are no
operands but have fewer nodes; what is proved of their results is proved along that tree.

* `ReplaceRun`, `replaceRun_of_replace` — the calls of a replacement;
* `SelectionRun`, `selectionRun_iff` — those of the selection of list items;
* `NormalRun`, `normalRun_of_normalForm` — those of normalization.
-/

namespace WeakForm.Expr

variable {R : Type} {a e r : Expr R}

/-- Each item of the second list is paired with one of the first. -/
theorem exists_left_of_zip {items items' : List (Expr R)} {item' : Expr R}
    (hl : items.length = items'.length) (hm : item' ∈ items') :
    ∃ item ∈ items, (item, item') ∈ items.zip items' := by
  obtain ⟨k, hk, rfl⟩ := List.mem_iff_getElem.mp hm
  have hk' : k < items.length := by omega
  refine ⟨items[k], List.getElem_mem hk', ?_⟩
  rw [← List.getElem_zip (h := by rw [List.length_zip]; omega)]
  exact List.getElem_mem _

variable [Scalar R] [DecidableEq R]

/-! ## Replacement -/

section Replacement

variable {f : Expr R → Option (Expr R)}

theorem replaceAll_eq_mapM (f : Expr R → Option (Expr R)) (items : List (Expr R)) :
    replaceAll f items = items.mapM (replace f) := by
  induction items with
  | nil =>
    rw [replaceAll, List.mapM_nil]
    rfl
  | cons item items ih => rw [replaceAll, List.mapM_cons, ih]

/-- One node per call of the replacement that returns: the expression, and its result. -/
inductive ReplaceRun (f : Expr R → Option (Expr R)) : Expr R → Expr R → Prop
  /-- What is exchanged is not descended into. -/
  | exchange {e r : Expr R} (h : f e = some r) : ReplaceRun f e r
  | leaf {t : Terminal R} (h : f (leaf t) = none) : ReplaceRun f (leaf t) (leaf t)
  | unary {op : UnaryOp} {a a' r : Expr R} (h : f (unary op a) = none) (ha : ReplaceRun f a a')
      (hr : reapply op a a' = .ok r) : ReplaceRun f (unary op a) r
  | binary {op : BinaryOp} {a a' b b' r : Expr R} (h : f (binary op a b) = none)
      (ha : ReplaceRun f a a') (hb : ReplaceRun f b b') (hr : reapply₂ op a b a' b' = .ok r) :
      ReplaceRun f (binary op a b) r
  | stack {items items' : List (Expr R)} {r : Expr R} (h : f (listTensor items) = none)
      (hl : items.length = items'.length)
      (hi : ∀ a a', (a, a') ∈ items.zip items' → ReplaceRun f a a')
      (hr : restack items items' = .ok r) : ReplaceRun f (listTensor items) r

/-- Each call of a replacement is a node over the calls that it makes. -/
theorem replaceRun_of_replace (h : replace f e = .ok r) : ReplaceRun f e r := by
  induction e generalizing r with
  | leaf t =>
    rw [replace.eq_def] at h
    -- the leaf is exchanged
    split at h
    · next s hs =>
      cases h
      exact .exchange hs
    -- or kept
    · next hkept =>
      cases h
      exact .leaf hkept
  | unary op a ih =>
    rw [replace.eq_def] at h
    split at h
    · next s hs =>
      cases h
      exact .exchange hs
    · next hkept =>
      obtain ⟨a', ha, h⟩ := bind_eq_ok.mp h
      exact .unary hkept (ih ha) h
  | binary op a b iha ihb =>
    rw [replace.eq_def] at h
    split at h
    · next s hs =>
      cases h
      exact .exchange hs
    -- what is not exchanged is built over its operands
    · next hkept =>
      obtain ⟨a', ha, h⟩ := bind_eq_ok.mp h
      obtain ⟨b', hb, h⟩ := bind_eq_ok.mp h
      exact .binary hkept (iha ha) (ihb hb) h
  | listTensor items ih =>
    rw [replace.eq_def] at h
    split at h
    · next s hs =>
      cases h
      exact .exchange hs
    · next hkept =>
      obtain ⟨items', hitems, h⟩ := bind_eq_ok.mp h
      rw [replaceAll_eq_mapM] at hitems
      have hzip := List.forall₂_iff_zip.mp (mapM_eq_ok.mp hitems)
      refine .stack hkept hzip.1 (fun a a' hm => ?_) h
      exact ih _ (List.of_mem_zip hm).1 (hzip.2 hm)

end Replacement

/-! ## Selection of list items -/

theorem resolveAll_eq_mapM (items : List (Expr R)) : resolveAll items = items.mapM resolve := by
  induction items with
  | nil =>
    rw [resolveAll, List.mapM_nil]
    rfl
  | cons item items ih => rw [resolveAll, List.mapM_cons, ih]

/-- One node per call of the pass that returns: the expression, and its result. -/
inductive SelectionRun : Expr R → Expr R → Prop
  /-- The pass goes on with the item that is selected. -/
  | item {e a r : Expr R} (hitem : item? e = some (.ok a)) (ha : SelectionRun a r) :
      SelectionRun e r
  | leaf (t : Terminal R) : SelectionRun (leaf t) (leaf t)
  | unary {op : UnaryOp} {a a' r : Expr R} (hitem : item? (unary op a) = none)
      (ha : SelectionRun a a') (hr : reapply op a a' = .ok r) : SelectionRun (unary op a) r
  | binary {op : BinaryOp} {a a' b b' r : Expr R} (ha : SelectionRun a a')
      (hb : SelectionRun b b') (hr : reapply₂ op a b a' b' = .ok r) :
      SelectionRun (binary op a b) r
  | stack {items items' : List (Expr R)} {r : Expr R} (hl : items.length = items'.length)
      (hi : ∀ a a', (a, a') ∈ items.zip items' → SelectionRun a a')
      (hr : restack items items' = .ok r) : SelectionRun (listTensor items) r

/-- The pass goes on with the item it selects. -/
theorem resolve_of_item? (h : item? e = some (.ok a)) : resolve e = resolve a := by
  rw [resolve.eq_def]
  split
  · next a' h' =>
    rw [h] at h'
    cases h'
    rfl
  · next h' =>
    rw [h] at h'
    cases h'
  · next h' =>
    rw [h] at h'
    cases h'

/-- Where no item is selected, the operator is applied to the resolved operand. -/
theorem resolve_unary {op : UnaryOp} (h : item? (unary op a) = none) :
    resolve (unary op a) = (do reapply op a (← resolve a)) := by
  rw [resolve.eq_def]
  split
  · next h' =>
    rw [h] at h'
    cases h'
  · next h' =>
    rw [h] at h'
    cases h'
  · rfl

/-- A binary operator is applied to the resolved operands. -/
theorem resolve_binary (op : BinaryOp) (a b : Expr R) :
    resolve (binary op a b) = (do reapply₂ op a b (← resolve a) (← resolve b)) := by
  rw [resolve.eq_def]
  rfl

theorem resolve_listTensor (items : List (Expr R)) :
    resolve (listTensor items) = (do restack items (← items.mapM resolve)) := by
  rw [resolve.eq_def, ← resolveAll_eq_mapM]
  rfl

/-- Each call of the pass is a node over the calls that it makes. -/
theorem selectionRun_iff : SelectionRun e r ↔ resolve e = .ok r := by
  constructor
  · intro h
    induction h with
    | item hitem _ ih => rw [resolve_of_item? hitem, ih]
    | leaf t =>
      rw [resolve.eq_def]
      rfl
    | unary hitem _ hr ih => rw [resolve_unary hitem, ih]; exact hr
    | binary _ _ hr iha ihb => rw [resolve_binary, iha, ihb]; exact hr
    | stack hl hi hr ih =>
      have hitems := mapM_eq_ok.mpr (List.forall₂_iff_zip.mpr ⟨hl, fun hm => ih _ _ hm⟩)
      rw [resolve_listTensor, hitems]
      exact hr
  · intro h
    -- on the size, since a selected item need not be an operand
    induction hsize : e.size using Nat.strongRecOn generalizing e r with
    | _ n ih =>
    subst hsize
    cases e with
    | leaf t =>
      rw [resolve.eq_def] at h
      cases h
      exact .leaf t
    | unary op a =>
      rcases hitem : item? (unary op a) with _ | ⟨⟨c⟩ | ⟨c⟩⟩
      -- no item is selected, so the operand is resolved
      · rw [resolve_unary hitem] at h
        obtain ⟨a', ha, h⟩ := bind_eq_ok.mp h
        exact .unary hitem (ih _ (by rw [size_unary]; omega) ha rfl) h
      -- selecting the item fails
      · rw [resolve.eq_def] at h
        split at h
        · next h' =>
          rw [hitem] at h'
          cases h'
        · cases h
        · next h' =>
          rw [hitem] at h'
          cases h'
      -- an item is selected, which is smaller than the expression
      · rw [resolve_of_item? hitem] at h
        exact .item hitem (ih _ (size_item? hitem) h rfl)
    -- both operands are smaller
    | binary op a b =>
      rw [resolve_binary] at h
      obtain ⟨a', ha, h⟩ := bind_eq_ok.mp h
      obtain ⟨b', hb, h⟩ := bind_eq_ok.mp h
      have hruna := ih _ (by rw [size_binary]; omega) ha rfl
      have hrunb := ih _ (by rw [size_binary]; omega) hb rfl
      exact .binary hruna hrunb h
    | listTensor items =>
      rw [resolve_listTensor] at h
      obtain ⟨items', hitems, h⟩ := bind_eq_ok.mp h
      have hzip := List.forall₂_iff_zip.mp (mapM_eq_ok.mp hitems)
      refine .stack hzip.1 (fun a a' hm => ?_) h
      exact ih _ (size_lt_of_mem (List.of_mem_zip hm).1) (hzip.2 hm) rfl

/-! ## Normalization -/

/-- One node per call of the pass that returns: the expression, and its normal form. -/
inductive NormalRun : Expr R → Expr R → Prop
  | chain {e r : Expr R} (hm : e.isModifiedTerminal) (h : balance e = .ok r) : NormalRun e r
  | label {number : Nat} {a r : Expr R} (ha : NormalRun a r) :
      NormalRun (unary (.labelled number) a) r
  /-- An operator over a normal form. Folding may leave a chain. -/
  | plain {op : UnaryOp} {a a' c r : Expr R} (hop : op.indices? = none)
      (hlabel : ∀ number, op ≠ .labelled number) (ha : NormalRun a a') (hc : op.apply a' = .ok c)
      (hr : finish c = .ok r) : NormalRun (unary op a) r
  /-- An indexing that is reduced. The pass goes on with what it is reduced to. -/
  | reduced {is : List Index} {a a' b r : Expr R} (ha : NormalRun a a')
      (hb : reduced? a' is = some (.ok b)) (hr : NormalRun b r) :
      NormalRun (unary (.indexed is) a) r
  | indexed {is : List Index} {a a' r : Expr R} (ha : NormalRun a a')
      (hb : reduced? a' is = none) (hr : indexedOver a' is = .ok r) :
      NormalRun (unary (.indexed is) a) r
  | binary {op : BinaryOp} {a a' b b' c r : Expr R} (ha : NormalRun a a') (hb : NormalRun b b')
      (hc : op.apply a' b' = .ok c) (hr : finish c = .ok r) : NormalRun (binary op a b) r
  | stack {items items' : List (Expr R)} {c r : Expr R} (hl : items.length = items'.length)
      (hi : ∀ a a', (a, a') ∈ items.zip items' → NormalRun a a') (hc : stack items' = .ok c)
      (hr : finish c = .ok r) : NormalRun (listTensor items) r

/-- A modified terminal is only balanced. -/
theorem normalForm_chain (hm : e.isModifiedTerminal) : normalForm e = balance e := by
  rw [normalForm_eq, step.eq_def, if_pos hm]

/-- Each call of the pass is a node over the calls that it makes. -/
theorem normalRun_of_normalForm (h : normalForm e = .ok r) : NormalRun e r := by
  -- on the size, since the pass calls itself on more than the operands
  induction hsize : e.size using Nat.strongRecOn generalizing e r with
  | _ n ih =>
  subst hsize
  rw [normalForm_eq, step.eq_def] at h
  split at h
  -- a chain is balanced
  · next hm => exact .chain hm h
  · next hm =>
    cases e with
    | leaf t => exact absurd rfl hm
    | unary op a =>
      have hlt : a.size < (unary op a).size := by
        rw [size_unary]
        omega
      change stepUnary normalForm op (normalForm a) = .ok r at h
      unfold stepUnary at h
      split at h
      -- an indexing, which is reduced or built anew
      · next is hop =>
        obtain rfl : op = .indexed is := by
          cases op <;> cases hop
          rfl
        obtain ⟨a', ha, h⟩ := bind_eq_ok.mp h
        have hrun := ih _ hlt ha rfl
        unfold stepIndexed at h
        split at h
        · next body hbody =>
          obtain ⟨b, rfl, h⟩ := bind_eq_ok.mp h
          have hsmall : b.size < (unary (.indexed is) a).size := by
            rw [size_unary]
            exact size_reduced?_lt hbody ha
          exact .reduced hrun hbody (ih _ hsmall h rfl)
        · next hbody => exact .indexed hrun hbody h
      -- any other operator
      · next hop =>
        unfold stepPlain at h
        split at h
        · exact .label (ih _ hlt h rfl)
        · next hlabel =>
          obtain ⟨a', ha, h⟩ := bind_eq_ok.mp h
          obtain ⟨c, hc, h⟩ := bind_eq_ok.mp h
          exact .plain hop hlabel (ih _ hlt ha rfl) hc h
    -- both operands are smaller
    | binary op a b =>
      obtain ⟨a', ha, h⟩ := bind_eq_ok.mp h
      obtain ⟨b', hb, h⟩ := bind_eq_ok.mp h
      obtain ⟨c, hc, h⟩ := bind_eq_ok.mp h
      have hruna := ih _ (by rw [size_binary]; omega) ha rfl
      have hrunb := ih _ (by rw [size_binary]; omega) hb rfl
      exact .binary hruna hrunb hc h
    | listTensor items =>
      obtain ⟨items', hitems, h⟩ := bind_eq_ok.mp h
      obtain ⟨c, hc, h⟩ := bind_eq_ok.mp h
      have hzip := List.forall₂_iff_zip.mp (mapM_eq_ok.mp hitems)
      refine .stack hzip.1 (fun a a' hmem => ?_) hc h
      exact ih _ (size_lt_of_mem (List.of_mem_zip hmem).1) (hzip.2 hmem) rfl

end WeakForm.Expr
