import WeakForm.Proofs.FixedPoints
import WeakForm.Proofs.Termination

/-!
# Where the selection of list items is complete

The pass decides on a node before it visits the operand, and builds the node again
afterwards. So an indexing whose operand becomes a list on the way, when a sum, a product or
a quotient folds to the operand that is one, stays in the result. These are the only
selections that are left over: without them the result has none, and the pass returns it as
it is.

* `Selection`, `Purged` — an item that is still to be selected, and results without one;
* `Meets`, `Uncovers` — the nodes the pass comes to, and what it uncovers there;
* `uncovered_of_selection` — what is left over was uncovered;
* `resolve_of_purged`, `purged_of_selectionRun` — nothing is left over exactly where the pass
  changes nothing;
* `ListsApart`, `purged_of_listsApart` — where no list can be uncovered;
* `resolveItems_purges` — the result, and `resolveItems_uncovers` — a list that is uncovered.
-/

namespace WeakForm.Expr

variable {R : Type} [Scalar R] [DecidableEq R] {a b d e r s : Expr R}

/-- The selection of list items never grows an expression. -/
theorem size_selectionRun (h : SelectionRun e r) : r.size ≤ e.size := by
  induction h with
  | item hitem _ ih => exact Nat.le_trans ih (Nat.le_of_lt (size_item? hitem))
  | leaf t => exact Nat.le_refl _
  | unary _ _ hr ih => exact size_reapply ih hr
  | binary _ _ hr iha ihb => exact size_reapply₂ iha ihb hr
  | stack hl _ hr ih =>
    exact size_restack (List.forall₂_iff_zip.mpr ⟨hl, fun hm => ih _ _ hm⟩).flip hr

/-! ## What is left over -/

omit [Scalar R] [DecidableEq R] in
/-- An item of a list that is selected by a position. -/
inductive Selection : Expr R → Prop
  | intro (p : Nat) (is : List Index) (items : List (Expr R)) :
      Selection (unary (.indexed (.fixed p :: is)) (listTensor items))

omit [Scalar R] [DecidableEq R] in
/-- No item is still to be selected. -/
def Purged (r : Expr R) : Prop :=
  ∀ s, Selection s → ¬Subexpression s r

/-- `Meets e d`: on `e`, the pass comes to `d`, which is `e`, or part of the item that `e`
selects, or part of an operand. -/
inductive Meets : Expr R → Expr R → Prop
  | refl {e : Expr R} : Meets e e
  | item {e a d : Expr R} (hitem : item? e = some (.ok a)) (h : Meets a d) : Meets e d
  | operand {e a d : Expr R} (hitem : item? e = none) (ha : a ∈ e.operands) (h : Meets a d) :
      Meets e d

/-- `Uncovers d s`: at `d`, the pass makes the selection `s` of an indexing of no list. -/
inductive Uncovers : Expr R → Expr R → Prop
  | intro {p : Nat} {is : List Index} {a : Expr R} {items : List (Expr R)}
      (hlist : ∀ items', a ≠ listTensor items') (ha : resolve a = .ok (listTensor items)) :
      Uncovers (unary (.indexed (.fixed p :: is)) a)
        (unary (.indexed (.fixed p :: is)) (listTensor items))

omit [Scalar R] [DecidableEq R] in
/-- No selection stands in a terminal. -/
theorem Selection.not_terminal (h : Selection s) (t : Terminal R) : ¬Subexpression s (leaf t) := by
  intro hsub
  cases hsub with
  | refl => cases h
  | operand hb => cases hb

omit [Scalar R] [DecidableEq R] in
/-- No selection stands in a constant. -/
theorem Selection.not_constant (h : Selection s) (hconst : r.isConstantValue) :
    ¬Subexpression s r := by
  obtain ⟨t, rfl⟩ := leaf_of_isConstantValue hconst
  exact h.not_terminal t

/-- A canonical selection selects an item. -/
theorem Selection.item?_ne_none (h : Selection s) (hcan : Canonical s) : item? s ≠ none := by
  obtain ⟨p, is, items⟩ := h
  exact reduced?_listTensor_ne_none hcan

/-- A selection that a node becomes is uncovered there: its list was no list before. -/
theorem Selection.uncovers {op : UnaryOp} (hs : Selection (unary op b))
    (hcan : Canonical (unary op a)) (hitem : item? (unary op a) = none)
    (ha : SelectionRun a b) : Uncovers (unary op a) (unary op b) := by
  cases hs with
  | intro p is items =>
    refine .intro (fun items' heq => ?_) (selectionRun_iff.mp ha)
    subst heq
    exact (Selection.intro p is items').item?_ne_none hcan hitem

/-- What is uncovered below an operand is uncovered below the node. -/
theorem uncovered_of_operand (hitem : item? e = none) (ha : a ∈ e.operands)
    (h : ∃ d, Meets a d ∧ Uncovers d s) : ∃ d, Meets e d ∧ Uncovers d s := by
  obtain ⟨d, hmeets, hd⟩ := h
  exact ⟨d, .operand hitem ha hmeets, hd⟩

/-- **What is left over was uncovered**: a selection in the result was made at a node that the
pass came to. -/
theorem uncovered_of_selection (hcan : Canonical e) (h : SelectionRun e r) (hs : Selection s)
    (hsub : Subexpression s r) : ∃ d, Meets e d ∧ Uncovers d s := by
  induction h with
  -- the pass goes on with the item
  | @item e a r hitem _ ih =>
    obtain ⟨d, hmeets, hd⟩ := ih (rank_item? hcan hitem).1 hsub
    exact ⟨d, .item hitem hmeets, hd⟩
  | leaf t => exact absurd hsub (hs.not_terminal t)
  | @unary op a a' r hitem ha hr ih =>
    have hcana := canonical_closed.operand hcan List.mem_cons_self
    have hbelow (hsub : Subexpression s a') : ∃ d, Meets (.unary op a) d ∧ Uncovers d s :=
      uncovered_of_operand hitem List.mem_cons_self (ih hcana hsub)
    cases hcan with
    | unary _ happly =>
    -- what is built is the operand, a constant or a node, and only a node can be a selection
    rcases unary_outcome (apply_of_reapply happly hr) with rfl | hconst | rfl
    · exact hbelow hsub
    · exact absurd hsub (hs.not_constant hconst)
    · cases hsub with
      | operand hb hsub =>
        rw [List.mem_singleton.mp hb] at hsub
        exact hbelow hsub
      | refl => exact ⟨_, .refl, hs.uncovers (.unary hcana happly) hitem ha⟩
  | @binary op a a' b b' r _ _ hr iha ihb =>
    have hcana := canonical_closed.operand hcan List.mem_cons_self
    have hcanb := canonical_closed.operand hcan (List.mem_cons_of_mem _ List.mem_cons_self)
    -- the selection stands in one of the resolved operands, or the node is built anew
    have hleft (hsub : Subexpression s a') : ∃ d, Meets (.binary op a b) d ∧ Uncovers d s :=
      uncovered_of_operand rfl List.mem_cons_self (iha hcana hsub)
    have hright (hsub : Subexpression s b') : ∃ d, Meets (.binary op a b) d ∧ Uncovers d s :=
      uncovered_of_operand rfl (List.mem_cons_of_mem _ List.mem_cons_self) (ihb hcanb hsub)
    cases hcan with
    | binary _ _ happly =>
    rcases binary_outcome (apply_of_reapply₂ happly hr) with rfl | rfl | hconst | rfl
    · exact hleft hsub
    · exact hright hsub
    · exact absurd hsub (hs.not_constant hconst)
    · cases hsub with
      | refl => cases hs
      | operand hb hsub =>
        rcases List.mem_pair.mp hb with rfl | rfl
        · exact hleft hsub
        · exact hright hsub
  | @stack items items' r hl _ hr ih =>
    cases hcan with
    | listTensor hci happly =>
    obtain ⟨first, rest, rfl, -, hstacked⟩ := stack_built (stack_of_restack happly hr)
    -- a list of zeros is zero, and otherwise the items are resolved
    cases hstacked with
    | zero => exact absurd hsub (hs.not_terminal _)
    | node =>
      cases hsub with
      | refl => cases hs
      | operand hb hsub =>
        obtain ⟨item, hm, hzip⟩ := exists_left_of_zip hl hb
        exact uncovered_of_operand rfl hm (ih _ _ hzip (hci item hm) hsub)

/-! ## Fixed points -/

omit [DecidableEq R] in
/-- An expression that is no selection selects nothing. -/
theorem item?_of_not_selection (h : ¬Selection e) : item? e = none := by
  unfold item?
  split
  · next is items =>
    unfold selectItem?
    split
    · next p rest => exact absurd (.intro p rest items) h
    · rfl
  · rfl

omit [Scalar R] [DecidableEq R] in
theorem Purged.operand (h : Purged e) (ha : a ∈ e.operands) : Purged a :=
  fun s hs hsub => h s hs (.operand ha hsub)

omit [Scalar R] [DecidableEq R] in
/-- An expression is purged when its root is no selection and its operands are purged. -/
theorem purged_of_operands (hroot : ¬Selection e) (h : ∀ a ∈ e.operands, Purged a) : Purged e := by
  intro s hs hsub
  cases hsub with
  | refl => exact hroot hs
  | operand ha hsub => exact h _ ha s hs hsub

omit [Scalar R] [DecidableEq R] in
theorem eq_of_mem_zip_self {items : List (Expr R)} {a a' : Expr R} (h : (a, a') ∈ items.zip items) :
    a = a' :=
  (List.forall₂_iff_zip.mp (List.forall₂_same.mpr fun _ _ => rfl)).2 h

/-- **Where nothing is to be selected, the pass changes nothing.** -/
theorem resolve_of_purged (h : Purged e) : resolve e = .ok e := by
  rw [← selectionRun_iff]
  induction e with
  | leaf t => exact .leaf t
  | unary op a ih =>
    -- Nothing here is a selection, so the run takes the operand rule and never the item rule.
    have hitem := item?_of_not_selection fun hs => h _ hs .refl
    exact .unary hitem (ih (h.operand List.mem_cons_self)) (if_pos rfl)
  | binary op a b iha ihb =>
    have ha := iha (h.operand List.mem_cons_self)
    have hb := ihb (h.operand (List.mem_cons_of_mem _ List.mem_cons_self))
    exact .binary ha hb (if_pos ⟨rfl, rfl⟩)
  | listTensor items ih =>
    refine .stack rfl (fun a a' hzip => ?_) (if_pos rfl)
    obtain rfl := eq_of_mem_zip_self hzip
    have hm := (List.of_mem_zip hzip).1
    exact ih a hm (h.operand hm)

/-- A node that is built again as it was has the operand that it had, if that is not larger. -/
theorem operand_of_reapply {op : UnaryOp} (happly : op.apply a = .ok (unary op a))
    (hle : b.size ≤ a.size) (hr : reapply op a b = .ok (unary op a)) : b = a := by
  rcases unary_outcome (apply_of_reapply happly hr) with heq | hconst | heq
  · rw [← heq, size_unary] at hle
    omega
  · cases hconst
  · cases heq
    rfl

/-- A binary operator that comes out unchanged has kept its operands. -/
theorem operands_of_reapply₂ {op : BinaryOp} {a' b' : Expr R}
    (happly : op.apply a b = .ok (binary op a b)) (hlea : a'.size ≤ a.size)
    (hleb : b'.size ≤ b.size) (hr : reapply₂ op a b a' b' = .ok (binary op a b)) :
    a' = a ∧ b' = b := by
  -- Folding to an operand would give something smaller, and folding to a literal no binary node.
  rcases binary_outcome (apply_of_reapply₂ happly hr) with heq | heq | hconst | heq
  · rw [← heq, size_binary] at hlea
    omega
  · rw [← heq, size_binary] at hleb
    omega
  · cases hconst
  · cases heq
    exact ⟨rfl, rfl⟩

/-- **Where the pass changes nothing, nothing is to be selected.** A node that is built again as
it was has the operands that it had, since the results of the pass are no larger. -/
theorem purged_of_selectionRun (hcan : Canonical e) (h : SelectionRun e e) : Purged e := by
  induction e with
  | leaf t => exact fun s hs => hs.not_terminal t
  | unary op a ih =>
    have hcana := canonical_closed.operand hcan List.mem_cons_self
    cases h with
    | item hitem ha =>
      -- An item is smaller than its selection, so picking one cannot give the selection back.
      have := size_item? hitem
      have := size_selectionRun ha
      omega
    | unary hitem ha hr =>
      refine purged_of_operands (fun hs => hs.item?_ne_none hcan hitem) ?_
      cases hcan with
      -- a node that is built is built over the same operand
      | unary _ happly =>
      obtain rfl := operand_of_reapply happly (size_selectionRun ha) hr
      exact List.forall_mem_singleton.mpr (ih hcana ha)
  | binary op a b iha ihb =>
    have hcana := canonical_closed.operand hcan List.mem_cons_self
    have hcanb := canonical_closed.operand hcan (List.mem_cons_of_mem _ List.mem_cons_self)
    cases h with
    | item hitem => cases hitem
    | binary ha hb hr =>
      cases hcan with
      | binary _ _ happly =>
      obtain ⟨rfl, rfl⟩ :=
        operands_of_reapply₂ happly (size_selectionRun ha) (size_selectionRun hb) hr
      refine purged_of_operands nofun (List.forall_mem_cons.mpr ⟨iha hcana ha, ?_⟩)
      exact List.forall_mem_singleton.mpr (ihb hcanb hb)
  | listTensor items ih =>
    cases h with
    | item hitem => cases hitem
    | @stack _ items' _ hl hi hr =>
      cases hcan with
      | listTensor hci happly =>
      -- the same holds for the items of a list
      obtain rfl : items = items' := by
        obtain ⟨first, rest, rfl, -, hstacked⟩ := stack_built (stack_of_restack happly hr)
        cases hstacked
        rfl
      refine purged_of_operands nofun fun item hm => ?_
      obtain ⟨item', hm', hzip⟩ := exists_left_of_zip hl hm
      obtain rfl := eq_of_mem_zip_self hzip
      exact ih item' hm' (hci item' hm') (hi _ _ hzip)

/-! ## Lists apart -/

omit [Scalar R] [DecidableEq R] in
/-- No sum, product or quotient has a list tensor for an operand. -/
inductive ListsApart : Expr R → Prop
  | leaf (t : Terminal R) : ListsApart (leaf t)
  | unary {op : UnaryOp} {a : Expr R} (ha : ListsApart a) : ListsApart (unary op a)
  | binary {op : BinaryOp} {a b : Expr R} (hlista : ∀ items, a ≠ listTensor items)
      (hlistb : ∀ items, b ≠ listTensor items) (ha : ListsApart a) (hb : ListsApart b) :
      ListsApart (binary op a b)
  | listTensor {items : List (Expr R)} (hi : ∀ item ∈ items, ListsApart item) :
      ListsApart (listTensor items)

omit [DecidableEq R] in
/-- An operator keeps lists apart. -/
theorem ListsApart.apply {op : UnaryOp} (ha : ListsApart a) (h : op.apply a = .ok r) :
    ListsApart r := by
  rcases unary_outcome h with rfl | hconst | rfl
  · exact ha
  · obtain ⟨t, rfl⟩ := leaf_of_isConstantValue hconst
    exact .leaf t
  · exact .unary ha

omit [DecidableEq R] in
/-- Lists stay apart in a selected item. -/
theorem ListsApart.item (he : ListsApart e) (h : item? e = some (.ok a)) : ListsApart a := by
  unfold item? at h
  split at h
  · obtain ⟨p, rest, item, -, hitem, happly⟩ := selectItem_built h
    cases he with
    | unary hl =>
    cases hl with
    | listTensor hi => exact (hi item (List.mem_of_getElem? hitem)).apply happly
  · cases h

omit [DecidableEq R] in
/-- What the pass comes to is canonical, with lists apart, if the whole is. -/
theorem Meets.listsApart (h : Meets e d) (hcan : Canonical e) (he : ListsApart e) :
    Canonical d ∧ ListsApart d := by
  -- Along the steps the run takes, from `e` inwards to `d`.
  induction h with
  | refl => exact ⟨hcan, he⟩
  | item hitem _ ih => exact ih (rank_item? hcan hitem).1 (he.item hitem)
  | operand _ ha _ ih =>
    refine ih (canonical_closed.operand hcan ha) ?_
    cases he with
    | leaf => cases ha
    | unary hl => rwa [List.mem_singleton.mp ha]
    | binary _ _ hla hlb =>
      rcases List.mem_pair.mp ha with rfl | rfl
      · exact hla
      · exact hlb
    | listTensor hi => exact hi _ ha

omit [DecidableEq R] in
/-- An operator that is a node over one operand gives back another one only if it is a terminal. -/
theorem leaf_of_apply_eq {op : UnaryOp} {a' : Expr R} (happly : op.apply a = .ok (unary op a))
    (h : op.apply a' = .ok r) (hr : r = a') : ∃ t, r = leaf t := by
  have hself {x : Expr R} (hx : unary op x = x) : ∃ t, r = leaf t := absurd hx (ne_operand op x)
  have hzeroOr (hz : ZeroOr op a' r) : ∃ t, r = leaf t := by
    cases hz with
    | zero => exact ⟨_, rfl⟩
    | node => exact hself hr
  have hderived (hd : Derived op a' r) : ∃ t, r = leaf t := by
    cases hd with
    | zero => exact ⟨_, rfl⟩
    | node => exact hself hr
  cases op with
  | math f =>
    -- a function of a number is a number
    cases (math_built h).2 with
    | literal => exact leaf_of_isConstantValue (isConstantValue_literal _)
    | node => exact hself hr
  | abs =>
    cases abs_built h with
    | zero hz => exact leaf_of_isConstantValue (isConstantValue_of_isZero hz)
    | literal => exact leaf_of_isConstantValue (isConstantValue_literal _)
    | node => exact hself hr
  | indexSum i => exact hzeroOr (sumOver_built h).2
  | indexed is =>
    -- without indices, the node would not be there
    rcases (index_built h).2 with ⟨his, -⟩ | ⟨-, -, hz⟩
    · exact absurd his (indexed_node happly).1
    · exact hzeroOr hz
  -- a component tensor binds an index, or it would not be there
  | componentTensor ids =>
    rcases (tensor_ids_built h).2 with ⟨hids, -⟩ | ⟨-, -, hz⟩
    · exact absurd hids (tensor_node happly).1
    · exact hzeroOr hz
  -- modifiers of constants are constants
  | restricted side =>
    have h : a'.restrict side = r := Except.ok.inj h
    unfold restrict at h
    split at h
    · next hconst => exact leaf_of_isConstantValue (h ▸ hconst)
    · exact hself (h.trans hr)
  | grad => exact hderived (gradient_built h).2
  | referenceGrad => exact hderived (referenceGradient_built h).2
  | spatialDerivative is =>
    rcases derivative_built h with ⟨his, -⟩ | ⟨-, -, -, -, hd⟩
    · exact absurd his (derivative_node happly).1
    · exact hderived hd
  | averaged region =>
    have h : a'.average region = r := Except.ok.inj h
    unfold average at h
    split at h
    · next hconst => exact leaf_of_isConstantValue (h ▸ hconst)
    · exact hself (h.trans hr)
  -- a label is always put on
  | labelled number => exact hself ((Except.ok.inj h).trans hr)

/-- Where lists are apart, only a list becomes a list. -/
theorem listTensor_of_selectionRun {items : List (Expr R)} (hcan : Canonical e)
    (he : ListsApart e) (h : SelectionRun e r) (hr : r = listTensor items) :
    ∃ items', e = listTensor items' := by
  induction h with
  | @item e a r hitem ha =>
    -- what is selected has no axes
    have hrank : r.rank = 0 := by
      rw [rank_resolve hcan (selectionRun_iff.mp (.item hitem ha))]
      unfold item? at hitem
      split at hitem
      · cases hcan with
        | unary _ happly => rw [rank, (attributes_index happly).1, List.length_nil]
      · cases hitem
    rw [hr, rank, shape, signature_stack] at hrank
    cases hrank
  | leaf t => cases hr
  | unary _ _ happly' ih =>
    cases hcan with
    | unary hca happly =>
    have happly' := apply_of_reapply happly happly'
    rcases unary_outcome happly' with heq | hconst | heq
    · -- an operator that is a node in the input gives no list back
      obtain ⟨t, ht⟩ := leaf_of_apply_eq happly happly' heq
      rw [ht] at hr
      cases hr
    -- constants and operators are no lists
    · rw [hr] at hconst
      cases hconst
    · rw [hr] at heq
      cases heq
  | binary _ _ happly' iha ihb =>
    cases hcan with
    | binary hca hcb happly =>
    cases he with
    | binary hlista hlistb hla hlb =>
    rcases binary_outcome (apply_of_reapply₂ happly happly') with heq | heq | hconst | heq
    -- a fold to an operand that has become a list: it was one before, which is excluded
    · obtain ⟨items', hitems⟩ := iha hca hla (heq ▸ hr)
      exact absurd hitems (hlista items')
    · obtain ⟨items', hitems⟩ := ihb hcb hlb (heq ▸ hr)
      exact absurd hitems (hlistb items')
    · rw [hr] at hconst
      cases hconst
    · rw [hr] at heq
      cases heq
  | @stack items => exact ⟨items, rfl⟩

/-- **Where lists are apart, the pass selects all items.** -/
theorem purged_of_listsApart (hcan : Canonical e) (he : ListsApart e) (h : SelectionRun e r) :
    Purged r := by
  intro s hs hsub
  obtain ⟨d, hmeets, hd⟩ := uncovered_of_selection hcan h hs hsub
  obtain ⟨hcand, hapart⟩ := hmeets.listsApart hcan he
  cases hd with
  | intro hlist ha =>
    cases hapart with
    | unary hapart =>
    have hcana := canonical_closed.operand hcand List.mem_cons_self
    -- A selection can only be uncovered over an operand that was no list before it was resolved.
    obtain ⟨items', hitems⟩ :=
      listTensor_of_selectionRun hcana hapart (selectionRun_iff.mpr ha) rfl
    exact hlist items' hitems

/-! ## The result -/

theorem Uncovers.selection (h : Uncovers d s) : Selection s := by
  cases h
  exact .intro _ _ _

/-- **The selection of list items is complete but for the lists that it uncovers.** The result
has no item left to select exactly where no indexing of what became a list on the way is part
of it; exactly then the pass returns the result as it is. Where no sum, product or quotient
has a list for an operand, this is so. -/
theorem resolveItems_purges (he : Obtained e) (h : resolveItems e = .ok r) :
    (Purged r ↔ ∀ d s, Meets e d → Uncovers d s → ¬Subexpression s r) ∧
      (Purged r ↔ resolveItems r = .ok r) ∧ (ListsApart e → Purged r) := by
  have hcan := obtained_canonical he
  have hcanr := obtained_canonical (.resolve he h)
  rw [resolveItems_eq_resolve] at h ⊢
  have hrun := selectionRun_iff.mpr h
  refine ⟨⟨fun hp d s _ hd => hp s hd.selection, fun hd s hs hsub => ?_⟩,
    ⟨resolve_of_purged, fun hr => purged_of_selectionRun hcanr (selectionRun_iff.mpr hr)⟩,
    fun hapart => purged_of_listsApart hcan hapart hrun⟩
  obtain ⟨d, hmeets, huncovers⟩ := uncovered_of_selection hcan hrun hs hsub
  exact hd d s hmeets huncovers hsub

namespace Numbers

def row : Expr ℚ := listTensor [int 1, int 2]

/-- The number of the row at a position. -/
def entry (p : Nat) : Expr ℚ := unary (.indexed [.fixed p]) row

/-- A list with an entry of another list at its head. -/
def nested : Expr ℚ := unary (.indexed [.fixed 0]) (listTensor [entry 1, int 1])

/-- An entry of the row that is scaled by its first entry. -/
def scaled : Expr ℚ := unary (.indexed [.fixed 0]) (binary .product (entry 0) row)

/-- The row is obtained by the constructors. -/
theorem obtained_row : Obtained row := by
  have hstack : stack [int 1, int 2] = .ok row := by
    with_unfolding_all rfl
  refine .stack (fun item hm => ?_) hstack
  rcases List.mem_pair.mp hm with rfl | rfl
  · exact .literal (.int 1)
  · exact .literal (.int 2)

/-- The nested selection is obtained by the constructors. -/
theorem obtained_nested : Obtained nested := by
  have hentry : UnaryOp.apply (.indexed [.fixed 1]) row = .ok (entry 1) := by
    with_unfolding_all rfl
  have hstack : stack [entry 1, int 1] = .ok (listTensor [entry 1, int 1]) := by
    with_unfolding_all rfl
  have hindex : UnaryOp.apply (.indexed [.fixed 0]) (listTensor [entry 1, int 1]) = .ok nested := by
    with_unfolding_all rfl
  refine .unary (.stack (fun item hm => ?_) hstack) hindex
  rcases List.mem_pair.mp hm with rfl | rfl
  · exact .unary obtained_row hentry
  · exact .literal (.int 1)

/-- The scaled selection is obtained by the constructors. -/
theorem obtained_scaled : Obtained scaled := by
  have hentry : UnaryOp.apply (.indexed [.fixed 0]) row = .ok (entry 0) := by
    with_unfolding_all rfl
  have hproduct : BinaryOp.apply .product (entry 0) row = .ok (binary .product (entry 0) row) := by
    with_unfolding_all rfl
  have hindex : UnaryOp.apply (.indexed [.fixed 0]) (binary .product (entry 0) row) =
      .ok scaled := by
    with_unfolding_all rfl
  exact .unary (.binary (.unary obtained_row hentry) obtained_row hproduct) hindex

theorem selectionRun_entry : SelectionRun (entry 0) (int 1) :=
  .item (by with_unfolding_all rfl) (.leaf _)

/-- The first factor becomes one, and the product folds to the row. -/
theorem selectionRun_scaled : SelectionRun scaled (entry 0) := by
  have hrow : SelectionRun row row := by
    refine .stack rfl (fun a a' hzip => ?_) (if_pos rfl)
    obtain rfl := eq_of_mem_zip_self hzip
    rcases List.mem_pair.mp (List.of_mem_zip hzip).1 with rfl | rfl
    · exact .leaf _
    · exact .leaf _
  have hproduct : SelectionRun (binary .product (entry 0) row) row :=
    .binary selectionRun_entry hrow (by with_unfolding_all rfl)
  exact .unary rfl hproduct (by with_unfolding_all rfl)

end Numbers

open Numbers in
/-- A list inside another is no operand of a sum, a product or a quotient. -/
theorem resolveItems_purges_nested :
    Obtained nested ∧ resolveItems nested = .ok (int 2) ∧ ListsApart nested ∧
      Purged (int (R := ℚ) 2) ∧ resolveItems (int (R := ℚ) 2) = .ok (int 2) := by
  have hresolve : resolveItems nested = .ok (int 2) := by
    -- selecting an entry gives another selection, which gives two
    rw [resolveItems_eq_resolve, ← selectionRun_iff]
    exact .item (a := entry 1) (by with_unfolding_all rfl)
      (.item (a := int 2) (by with_unfolding_all rfl) (.leaf _))
  have happart : ListsApart nested := by
    -- the lists stand in selections only
    have hrow : ListsApart row := .listTensor fun item hm => by
      rcases List.mem_pair.mp hm with rfl | rfl
      · exact .leaf _
      · exact .leaf _
    refine .unary (.listTensor fun item hm => ?_)
    rcases List.mem_pair.mp hm with rfl | rfl
    · exact .unary hrow
    · exact .leaf _
  obtain ⟨-, hfixed, hpurged⟩ := resolveItems_purges obtained_nested hresolve
  exact ⟨obtained_nested, hresolve, happart, hpurged happart, hfixed.mp (hpurged happart)⟩

open Numbers in
/-- A row that was uncovered: one selection stays, and the second pass carries it out. -/
theorem resolveItems_uncovers :
    Obtained scaled ∧ resolveItems scaled = .ok (entry 0) ∧ ¬Purged (entry 0) ∧
      resolveItems (entry 0) = .ok (int 1) ∧ entry 0 ≠ int 1 := by
  refine ⟨obtained_scaled, ?_, fun h => h _ (.intro 0 [] _) .refl, ?_, fun h => ?_⟩
  · rw [resolveItems_eq_resolve]
    exact selectionRun_iff.mp selectionRun_scaled
  · rw [resolveItems_eq_resolve]
    exact selectionRun_iff.mp selectionRun_entry
  · have hsize := congrArg size h
    simp [entry, row, int] at hsize

end WeakForm.Expr
