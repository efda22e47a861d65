import WeakForm.Expr.Balance
import WeakForm.Expr.ListItems
import WeakForm.Expr.Substitution

/-!
# Normal form of integrands

Normalization brings an integrand into the form that scalarization accepts,
without changing its value:

* quadrature weights become `1`, and labels are dropped;
* an indexed component tensor becomes its operand, with its indices renamed;
* an indexed list tensor with a fixed leading index becomes the selected item;
* modifier chains are balanced.

The pass calls itself on expressions it has just made: the renamed operand of a
component tensor, and the selected item of a list tensor. It ends because no step
grows an expression, so each of these calls is on one with fewer nodes.

* `step` — one step of the pass, over the results of its calls;
* `normalForm` — the pass, as many steps deep as the expression has nodes;
* `normalForm_eq` — that is deep enough: `normalForm` is a fixed point of `step`;
* `size_normalForm` — the pass never grows an expression;
* `normalize` — replacement of weights, then the pass over shared subexpressions.
-/

namespace WeakForm.Expr

variable {R : Type} [Scalar R]

/-! ## One step -/

/-- Folding may have exposed a modifier chain, which is then balanced. -/
def finish (e : Expr R) : Checked R (Expr R) :=
  if !e.isTerminal && e.isModifiedTerminal then balance e else .ok e

/-- What indexing builds over an operand that cannot be reduced. A list tensor
stays indexed by its free leading index. -/
def indexedOver (a : Expr R) (is : List Index) : Checked R (Expr R) := do
  let r ← a.index is
  match a with
  | listTensor _ => return r
  | _ => finish r

variable [DecidableEq R]

/-- The expression that an indexed component tensor or list tensor reduces to. -/
def reduced? (a : Expr R) (is : List Index) : Option (Checked R (Expr R)) :=
  match a with
  | unary (.componentTensor ids) body => some (body.substitute (ids.zip is))
  | listTensor items => selectItem? items is
  | _ => none

/-- The normal form of an indexed operand that is in normal form itself. -/
def stepIndexed (v : Expr R → Checked R (Expr R)) (is : List Index) (a : Expr R) :
    Checked R (Expr R) :=
  match reduced? a is with
  -- the pass goes on with what the indexing has been reduced to
  | some body => do v (← body)
  | none => indexedOver a is

/-- The normal form of a unary operator that is not an indexing, over a result of the pass. -/
def stepPlain (op : UnaryOp) (a : Checked R (Expr R)) : Checked R (Expr R) :=
  match op with
  | .labelled _ => a
  | op => do finish (← op.apply (← a))

/-- The normal form of a unary operator over a result of the pass. -/
def stepUnary (v : Expr R → Checked R (Expr R)) (op : UnaryOp) (a : Checked R (Expr R)) :
    Checked R (Expr R) :=
  match op.indices? with
  | some is => do stepIndexed v is (← a)
  | none => stepPlain op a

/-- One step of the pass, with `v` for its calls. -/
def step (v : Expr R → Checked R (Expr R)) (e : Expr R) : Checked R (Expr R) :=
  if e.isModifiedTerminal then balance e
  else
    match e with
    | leaf t => .ok (leaf t)
    | unary op a => stepUnary v op (v a)
    | binary op a b => do finish (← op.apply (← v a) (← v b))
    | listTensor items => do finish (← stack (← items.mapM v))

/-- The pass, cut off after `n` nested steps. -/
def visit : Nat → Expr R → Checked R (Expr R)
  | 0, e => .ok e
  | n + 1, e => step (visit n) e

/-- The normal form of an expression without quadrature weights. -/
def normalForm (e : Expr R) : Checked R (Expr R) :=
  visit e.size e

/-! ## Steps never grow an expression -/

/-- A pass whose results have at most as many nodes as its inputs. -/
def NeverGrows (v : Expr R → Checked R (Expr R)) : Prop :=
  ∀ e r, v e = .ok r → r.size ≤ e.size

omit [DecidableEq R] in
/-- Resolving and balancing at the end add no node. -/
theorem size_finish {e r : Expr R} (h : finish e = .ok r) : r.size ≤ e.size := by
  unfold finish at h
  split at h
  · exact size_balance h
  · simp [← Except.ok.inj h]

omit [DecidableEq R] in
/-- An indexing that is made over an operand adds at most one node. -/
theorem size_indexedOver {a r : Expr R} {is : List Index} (h : indexedOver a is = .ok r) :
    r.size ≤ a.size + 1 := by
  unfold indexedOver at h
  simp only [bind, Except.bind] at h
  split at h
  · cases h
  · next e he =>
    have := size_index he
    split at h
    · obtain rfl := Except.ok.inj h
      assumption
    · exact Nat.le_trans (size_finish h) this

/-- An indexing is reduced over a component tensor, by a renaming of its indices, or over a list
tensor, to one of its items. -/
theorem reduced?_built {a r : Expr R} {is : List Index} (h : reduced? a is = some (.ok r)) :
    (∃ ids body, a = unary (.componentTensor ids) body ∧ rename (ids.zip is) body = .ok r) ∨
      ∃ items, a = listTensor items ∧ selectItem? items is = some (.ok r) := by
  unfold reduced? at h
  split at h
  · next ids body =>
    exact .inl ⟨ids, body, rfl, substitute_eq_rename body _ ▸ Option.some.inj h⟩
  · next items => exact .inr ⟨items, rfl, h⟩
  · cases h

/-- What an indexing is reduced to has no more nodes than its operand: the indexing itself is gone.
-/
theorem size_reduced? {a r : Expr R} {is : List Index} (h : reduced? a is = some (.ok r)) :
    r.size ≤ a.size := by
  rcases reduced?_built h with ⟨ids, body, rfl, hr⟩ | ⟨items, rfl, hr⟩
  · have := size_rename hr
    simp only [size_unary]
    omega
  · exact size_selectItem? hr

omit [Scalar R] [DecidableEq R] in
/-- A pass that never grows an expression does not grow a list of them. -/
theorem NeverGrows.mapM {v : Expr R → Checked R (Expr R)} (hv : NeverGrows v)
    {es rs : List (Expr R)} (h : es.mapM v = .ok rs) :
    totalSize rs ≤ totalSize es := by
  induction es generalizing rs with
  | nil => simp [← Except.ok.inj h]
  | cons e es ih =>
    -- the head and the rest both succeed, as the whole list does
    rw [List.mapM_cons] at h
    cases he : v e with
    | error b => rw [he] at h; cases h
    | ok r =>
      cases hes : es.mapM v with
      | error b => rw [he, hes] at h; cases h
      | ok rs' =>
        rw [he, hes] at h
        have := hv e r he
        have := ih hes
        simp only [← Except.ok.inj h, totalSize_cons]
        omega

/-- An indexing is reduced and visited again, or stays over its operand. -/
theorem NeverGrows.stepIndexed {v : Expr R → Checked R (Expr R)} (hv : NeverGrows v)
    {is : List Index} {a r : Expr R} (h : stepIndexed v is a = .ok r) : r.size ≤ a.size + 1 := by
  unfold Expr.stepIndexed at h
  split at h
  -- reduced: the visit is on something smaller
  · next body hb =>
    cases body with
    | error b => cases h
    | ok body =>
      have := hv _ _ h
      have := size_reduced? hb
      omega
  · exact size_indexedOver h

omit [DecidableEq R] in
/-- A node over a visited operand adds at most one node to it. -/
theorem size_stepPlain {op : UnaryOp} {a : Checked R (Expr R)} {n : Nat} {r : Expr R}
    (ha : ∀ a', a = .ok a' → a'.size ≤ n) (h : stepPlain op a = .ok r) : r.size ≤ n + 1 := by
  cases a with
  | error b => cases op <;> cases h
  | ok a' =>
    have ha := ha a' rfl
    unfold stepPlain at h
    split at h
    · obtain rfl := Except.ok.inj h
      omega
    -- one node more over the result of the call
    · cases hb : op.apply a' with
      | error b => simp [bind, Except.bind, hb] at h
      | ok b =>
        have := size_apply_unary hb
        have := size_finish (show finish b = .ok r by simpa [bind, Except.bind, hb] using h)
        omega

/-- Under an operator, the operand is visited first, and once more if it is indexed. -/
theorem NeverGrows.stepUnary {v : Expr R → Checked R (Expr R)} (hv : NeverGrows v)
    {op : UnaryOp} {a r : Expr R} (h : stepUnary v op (v a) = .ok r) :
    r.size ≤ (unary op a).size := by
  unfold Expr.stepUnary at h
  simp only [size_unary]
  split at h
  -- an indexing: what the operand became is visited again, under it
  · next is _ =>
    cases ha : v a with
    | error b => rw [ha] at h; cases h
    | ok a' =>
      rw [ha] at h
      have := hv _ _ ha
      have := hv.stepIndexed (show Expr.stepIndexed v is a' = .ok r from h)
      omega
  · exact size_stepPlain (fun a' => hv a a') h

/-- One step of the pass does not grow an expression, if its calls do not. -/
theorem NeverGrows.step {v : Expr R → Checked R (Expr R)} (hv : NeverGrows v) :
    NeverGrows (step v) := by
  intro e r h
  unfold Expr.step at h
  split at h
  -- a chain of modifiers is sorted, not visited
  · exact size_balance h
  · split at h
    · simp [← Except.ok.inj h]
    · exact hv.stepUnary h
    · next op a b _ =>
      -- both operands are visited before the operator is applied
      cases ha : v a with
      | error b => rw [ha] at h; cases h
      | ok a' =>
        cases hb : v b with
        | error b => rw [ha, hb] at h; cases h
        | ok b' =>
          rw [ha, hb] at h
          cases hc : op.apply a' b' with
          | error b => simp [bind, Except.bind, hc] at h
          | ok c =>
            have := hv _ _ ha
            have := hv _ _ hb
            have := size_apply_binary hc
            have := size_finish (show finish c = .ok r by simpa [bind, Except.bind, hc] using h)
            simp only [size_binary]
            omega
    · next items _ =>
      -- all items are visited before they are stacked
      cases hi : items.mapM v with
      | error b => rw [hi] at h; cases h
      | ok items' =>
        rw [hi] at h
        cases hc : stack items' with
        | error b => simp [bind, Except.bind, hc] at h
        | ok c =>
          have := hv.mapM hi
          have := size_stack hc
          have := size_finish (show finish c = .ok r by simpa [bind, Except.bind, hc] using h)
          simp only [size_listTensor]
          omega

/-- The pass does not grow an expression, for any number of steps. -/
theorem neverGrows_visit (n : Nat) : NeverGrows (visit (R := R) n) := by
  induction n with
  | zero => intro e r h; simp [← Except.ok.inj h]
  | succ n ih => exact ih.step

/-- The normal form has at most as many nodes. -/
theorem size_normalForm {e r : Expr R} (h : normalForm e = .ok r) : r.size ≤ e.size :=
  neverGrows_visit _ e r h

/-! ## The calls of a step are on smaller expressions -/

omit [Scalar R] [DecidableEq R] in
/-- Two passes that agree on all items agree on the list. -/
theorem mapM_congr {v w : Expr R → Checked R (Expr R)} {es : List (Expr R)}
    (h : ∀ e ∈ es, v e = w e) : es.mapM v = es.mapM w := by
  induction es with
  | nil => rfl
  | cons e es ih =>
    rw [List.mapM_cons, List.mapM_cons, h e (by simp), ih fun e he => h e (by simp [he])]

/-- A step depends on its calls on smaller expressions only. -/
theorem step_congr {v w : Expr R → Checked R (Expr R)} (hv : NeverGrows v) (e : Expr R)
    (h : ∀ e' : Expr R, e'.size < e.size → v e' = w e') : step v e = step w e := by
  unfold step
  split
  · rfl
  · cases e with
    | leaf t => rfl
    | unary op a =>
      simp only [stepUnary, ← h a (by simp)]
      split
      · next is _ =>
        -- the second call is on what the result of the first is reduced to
        cases hr : v a with
        | error b => rfl
        | ok a' =>
          have hs := hv _ _ hr
          simp only [bind, Except.bind, stepIndexed]
          split
          · next body hb =>
            cases body with
            | error b => rfl
            | ok body =>
              have := size_reduced? hb
              exact h body (by simp only [size_unary]; omega)
          · rfl
      · rfl
    | binary op a b =>
      simp only [h a (by simp only [size_binary]; omega), h b (by simp only [size_binary]; omega)]
    | listTensor items => simp only [mapM_congr fun e he => h e (size_lt_of_mem he)]

/-- Beyond the number of nodes, the depth of the pass does not matter. -/
theorem visit_eq {n : Nat} {e : Expr R} (h : e.size ≤ n) : visit n e = normalForm e := by
  suffices key : ∀ k n m (e : Expr R), e.size ≤ k → e.size ≤ n → e.size ≤ m →
      visit n e = visit m e from key e.size n e.size e (Nat.le_refl _) h (Nat.le_refl _)
  -- on a bound of the size, since a step calls the pass on more than the operands
  intro k
  induction k with
  | zero => intro n m e hk; have := size_pos e; omega
  | succ k ih =>
    intro n m e hk hn hm
    have := size_pos e
    obtain ⟨n, rfl⟩ : ∃ j, n = j + 1 := ⟨n - 1, by omega⟩
    obtain ⟨m, rfl⟩ : ∃ j, m = j + 1 := ⟨m - 1, by omega⟩
    exact step_congr (neverGrows_visit n) e fun e' he =>
      ih n m e' (by omega) (by omega) (by omega)

/-- The pass is a fixed point of its step. -/
theorem normalForm_eq (e : Expr R) : normalForm e = step normalForm e := by
  obtain ⟨n, hn⟩ : ∃ n, e.size = n + 1 := ⟨e.size - 1, by have := size_pos e; omega⟩
  rw [normalForm, hn]
  exact step_congr (neverGrows_visit n) e fun e' he => visit_eq (by omega)

/-! ## The pass over shared subexpressions -/

/-- What an indexed normal form reduces to is smaller than the indexing. -/
theorem size_reduced?_lt {a a' body : Expr R} {is : List Index}
    (hb : reduced? a' is = some (.ok body)) (ha : normalForm a = .ok a') :
    body.size < a.size + 1 := by
  have := size_reduced? hb
  have := size_normalForm ha
  omega

mutual

/-- `normalForm` with a table of the subexpressions normalized before. -/
def normalFormShared (e : Expr R) : Memo.Run (normalForm (R := R)) (normalForm e) :=
  Memo.lookUp e <|
    if hm : e.isModifiedTerminal then
      pure ⟨balance e, by rw [normalForm_eq, step.eq_def, if_pos hm]⟩
    else
      match e with
      | leaf t => pure ⟨.ok (leaf t), by rw [normalForm_eq, step, if_neg hm]⟩
      | unary op a => do
        let ⟨a', ha⟩ ← normalFormShared a
        match hi : op.indices? with
        | none =>
          pure ⟨stepPlain op a', by rw [normalForm_eq, step, if_neg hm, stepUnary, hi, ha]⟩
        | some is =>
          match ha' : a' with
          | .error b =>
            pure ⟨.error b, by rw [normalForm_eq, step, if_neg hm, ← ha, ha', stepUnary, hi]; rfl⟩
          | .ok a'' =>
            match hb : reduced? a'' is with
            | some (.ok body) => do
              let ⟨r, hr⟩ ← normalFormShared body
              pure ⟨r, by
                rw [normalForm_eq, step, if_neg hm, ← ha, ha', stepUnary, hi]
                simp [bind, Except.bind, stepIndexed, hb, hr]⟩
            | some (.error b) =>
              pure ⟨.error b, by
                rw [normalForm_eq, step, if_neg hm, ← ha, ha', stepUnary, hi]
                simp [bind, Except.bind, stepIndexed, hb]⟩
            | none =>
              pure ⟨indexedOver a'' is, by
                rw [normalForm_eq, step, if_neg hm, ← ha, ha', stepUnary, hi]
                simp [bind, Except.bind, stepIndexed, hb]⟩
      | binary op a b => do
        let ⟨a', ha⟩ ← normalFormShared a
        let ⟨b', hb⟩ ← normalFormShared b
        pure ⟨do finish (← op.apply (← a') (← b')), by
          rw [normalForm_eq, step, if_neg hm, ha, hb]⟩
      | listTensor items => do
        let ⟨items', hi⟩ ← normalFormsShared items
        pure ⟨do finish (← stack (← items')), by rw [normalForm_eq, step, if_neg hm, hi]⟩
  termination_by (e.size, 0)
  decreasing_by
    all_goals apply Prod.Lex.left
    all_goals simp only [size_unary, size_binary, size_listTensor]
    -- the operands, and what an indexing has been reduced to
    all_goals first
      | omega
      | exact size_reduced?_lt hb (ha.symm.trans ha')

/-- The normal forms of a list, with a table of the subexpressions normalized before. -/
def normalFormsShared (es : List (Expr R)) :
    Memo.Run (normalForm (R := R)) (es.mapM normalForm) :=
  match es with
  | [] => pure ⟨.ok [], rfl⟩
  | e :: es => do
    let ⟨e', he⟩ ← normalFormShared e
    let ⟨es', hes⟩ ← normalFormsShared es
    pure ⟨do return (← e') :: (← es'), by rw [List.mapM_cons, he, hes]⟩
  termination_by (totalSize es, 1)
  decreasing_by
    · simp only [totalSize_cons, Prod.lex_def]
      omega
    · have := size_pos e
      apply Prod.Lex.left
      simp only [totalSize_cons]
      omega

end

/-- The normal form of an integrand. -/
def normalize (e : Expr R) : Checked R (Expr R) := do
  (normalFormShared (← e.replaceWeights)).value

/-- Weights are replaced first, then the pass runs until nothing changes. -/
theorem normalize_eq (e : Expr R) :
    normalize e = (do normalForm (← e.replaceWeights)) := by
  simp only [normalize, Memo.Run.value_eq]

end WeakForm.Expr
