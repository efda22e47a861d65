import WeakForm.Expr.Replacement
import WeakForm.Expr.Size
import WeakForm.Memo

/-!
# Items of list tensors

A list tensor whose leading index is fixed is one of its items, indexed by the
remaining indices.

* `item?` — the item that an indexed list tensor selects;
* `resolveItems` — an expression with every such selection carried out, from the
  root down (`resolveItems_eq_resolve`).
-/

namespace WeakForm.Expr

variable {R : Type}

/-- The item a position selects from a list tensor, indexed by the rest. -/
def selectItem? (items : List (Expr R)) [Scalar R] : List Index → Option (Checked R (Expr R))
  | .fixed p :: rest => (items[p]?).map (·.index rest)
  | _ => none

/-- The item that an indexed list tensor with a fixed leading index stands for. -/
def item? [Scalar R] : Expr R → Option (Checked R (Expr R))
  | unary (.indexed is) (listTensor items) => selectItem? items is
  | _ => none

variable [Scalar R]

/-- An item is selected by a leading position and indexed by the rest. -/
theorem selectItem_built {items : List (Expr R)} {is : List Index} {r : Expr R}
    (h : selectItem? items is = some (.ok r)) :
    ∃ p rest item, is = .fixed p :: rest ∧ items[p]? = some item ∧
      UnaryOp.apply (.indexed rest) item = .ok r := by
  unfold selectItem? at h
  split at h
  · next p rest =>
    obtain ⟨item, hitem, h⟩ := Option.map_eq_some_iff.mp h
    exact ⟨p, rest, item, rfl, hitem, h⟩
  · cases h

/-- A selected item, indexed by what is left of the indices, is no larger than its list. -/
theorem size_selectItem? {items : List (Expr R)} {is : List Index} {r : Expr R}
    (h : selectItem? items is = some (.ok r)) : r.size ≤ (listTensor items).size := by
  obtain ⟨p, rest, item, -, hitem, happly⟩ := selectItem_built h
  have := size_index happly
  have := size_lt_of_mem (List.mem_of_getElem? hitem)
  omega

/-- Selecting an item takes at least the indexing away. -/
theorem size_item? {e r : Expr R} (h : item? e = some (.ok r)) : r.size < e.size := by
  unfold item? at h
  split at h
  · have := size_selectItem? h
    simp only [size_unary]
    omega
  · cases h

variable [DecidableEq R]

mutual

/-- The expression with every selection of a list item carried out. -/
def resolve (e : Expr R) : Checked R (Expr R) :=
  match _h : item? e with
  | some (.ok item) => resolve item
  | some (.error b) => .error b
  | none =>
    match e with
    | leaf t => .ok (leaf t)
    | unary op a => do reapply op a (← resolve a)
    | binary op a b => do reapply₂ op a b (← resolve a) (← resolve b)
    | listTensor items => do restack items (← resolveAll items)
  termination_by (e.size, 0)
  decreasing_by
    · exact Prod.Lex.left _ _ (size_item? _h)
    all_goals apply Prod.Lex.left; simp only [size_unary, size_binary, size_listTensor]; omega

/-- `resolve` on every expression of a list. -/
def resolveAll (es : List (Expr R)) : Checked R (List (Expr R)) :=
  match es with
  | [] => .ok []
  | e :: es => do return (← resolve e) :: (← resolveAll es)
  termination_by (totalSize es, 1)
  decreasing_by
    · simp only [totalSize_cons, Prod.lex_def]
      omega
    · have := size_pos e
      apply Prod.Lex.left
      simp only [totalSize_cons]
      omega

end

mutual

/-- `resolve` with a table of the subexpressions resolved before. -/
def resolveShared (e : Expr R) : Memo.Run (resolve (R := R)) (resolve e) :=
  Memo.lookUp e <|
    match h : item? e with
    | some (.ok item) => do
      let ⟨r, hr⟩ ← resolveShared item
      pure ⟨r, by rw [resolve.eq_def]; split <;> simp_all⟩
    | some (.error b) => pure ⟨.error b, by rw [resolve.eq_def]; split <;> simp_all⟩
    | none =>
      match e with
      | leaf t => pure ⟨.ok (leaf t), by rw [resolve.eq_def]; split <;> simp_all⟩
      | unary op a => do
        let ⟨a', ha⟩ ← resolveShared a
        pure ⟨do reapply op a (← a'), by rw [resolve.eq_def]; split <;> simp_all⟩
      | binary op a b => do
        let ⟨a', ha⟩ ← resolveShared a
        let ⟨b', hb⟩ ← resolveShared b
        pure ⟨do reapply₂ op a b (← a') (← b'), by rw [resolve.eq_def]; split <;> simp_all⟩
      | listTensor items => do
        let ⟨items', hi⟩ ← resolveAllShared items
        pure ⟨do restack items (← items'), by rw [resolve.eq_def]; split <;> simp_all⟩
  termination_by (e.size, 0)
  decreasing_by
    · exact Prod.Lex.left _ _ (size_item? h)
    all_goals apply Prod.Lex.left; simp only [size_unary, size_binary, size_listTensor]; omega

/-- `resolveAll` with a table of the subexpressions resolved before. -/
def resolveAllShared (es : List (Expr R)) : Memo.Run (resolve (R := R)) (resolveAll es) :=
  match es with
  | [] => pure ⟨.ok [], by rw [resolveAll]⟩
  | e :: es => do
    let ⟨e', he⟩ ← resolveShared e
    let ⟨es', hes⟩ ← resolveAllShared es
    pure ⟨do return (← e') :: (← es'), by rw [resolveAll, he, hes]⟩
  termination_by (totalSize es, 1)
  decreasing_by
    · simp only [totalSize_cons, Prod.lex_def]
      omega
    · have := size_pos e
      apply Prod.Lex.left
      simp only [totalSize_cons]
      omega

end

/-- Carry out every selection of a list item by a fixed position. -/
def resolveItems (e : Expr R) : Checked R (Expr R) :=
  (resolveShared e).value

theorem resolveItems_eq_resolve (e : Expr R) : resolveItems e = resolve e :=
  Memo.Run.value_eq _

end WeakForm.Expr
