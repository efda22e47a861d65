import WeakForm.Expr.Size
import WeakForm.Memo

/-!
# Index substitution

A renaming replaces free indices by other free indices or by fixed positions. A
fixed index disappears from the free indices of the result. An index sum or a
component tensor binds its indices: inside its operand, the renaming does not
apply to them.

* `Renaming` — pairs of an index and its replacement, where the first pair of an
  index counts;
* `rename` — the substitution, by recursion on the expression;
* `substitute` — the same, with every shared subexpression renamed once
  (`substitute_eq_rename`);
* `size_rename` — substitution never grows an expression.
-/

namespace WeakForm

/-- Replacements of free indices. The first pair of an index counts. -/
abbrev Renaming := List (IndexId × Index)

namespace Renaming

/-- The replacements given by pairs of which the last one of an index counts. -/
def ofPairs (pairs : List (IndexId × Index)) : Renaming :=
  pairs.reverse

/-- The replacement of an index. -/
def find? (σ : Renaming) (i : IndexId) : Option Index :=
  σ.lookup i

/-- Whether some free index is replaced. -/
def touches (σ : Renaming) (free : FreeIndices) : Bool :=
  free.any fun f => (σ.find? f.id).isSome

/-- The replacement of one entry of an indexing operation. -/
def onIndex (σ : Renaming) : Index → Index
  | .fixed p => .fixed p
  | .free i => (σ.find? i).getD (.free i)

/-- A renaming without the given indices. -/
def without (σ : Renaming) (bound : List IndexId) : Renaming :=
  σ.filter fun p => !bound.contains p.1

/-- The operator with its indices replaced. Bound indices are kept. -/
def onOp (σ : Renaming) : UnaryOp → UnaryOp
  | .indexed is => .indexed (is.map σ.onIndex)
  | .spatialDerivative is => .spatialDerivative (is.map σ.onIndex)
  | op => op

/-- The renaming that applies to the operand of an operator. -/
def inside (σ : Renaming) : UnaryOp → Renaming
  | .indexSum i => σ.without [i]
  | .componentTensor is => σ.without is
  | _ => σ

/-- The images of free indices. An index replaced by a position is dropped. -/
def onFree (σ : Renaming) (free : FreeIndices) : FreeIndices :=
  FreeIndices.sort <| free.filterMap fun f =>
    match σ.onIndex (.free f.id) with
    | .free i => some ⟨i, f.dim⟩
    | .fixed _ => none

end Renaming

namespace Expr

variable {R : Type} [Scalar R]

mutual

/-- The expression with its free indices replaced. -/
def rename (σ : Renaming) (e : Expr R) : Checked R (Expr R) :=
  if σ.touches e.free then
    match e with
    -- no other terminal has free indices
    | leaf (.zero shape free) => zeroOver shape (σ.onFree free)
    | leaf t => .ok (leaf t)
    | unary op a => do (σ.onOp op).apply (← rename (σ.inside op) a)
    | binary op a b => do op.apply (← rename σ a) (← rename σ b)
    | listTensor items => do stack (← renameAll σ items)
  else .ok e

/-- Every expression of a list with its free indices replaced. -/
def renameAll (σ : Renaming) : List (Expr R) → Checked R (List (Expr R))
  | [] => .ok []
  | e :: es => do return (← rename σ e) :: (← renameAll σ es)

end

/-! ## Substitution over shared subexpressions -/

section Shared

variable [DecidableEq R]

mutual

/-- `rename` with a table of the subexpressions renamed before. -/
def renameShared (σ : Renaming) (e : Expr R) : Memo.Run (rename (R := R) σ) (rename σ e) :=
  if h : σ.touches e.free then
    Memo.lookUp e <|
      match e with
      | leaf t => pure ⟨rename σ (leaf t), rfl⟩
      | unary op a =>
        if hσ : σ.inside op = σ then do
          let ⟨a', ha⟩ ← renameShared σ a
          pure ⟨do (σ.onOp op).apply (← a'), by rw [rename, if_pos h, hσ, ha]⟩
        else
          -- another renaming applies inside, so the table does not hold there
          let a' := (renameShared (σ.inside op) a).value
          pure ⟨do (σ.onOp op).apply (← a'), by
            rw [rename, if_pos h]; simp only [a', Memo.Run.value_eq]⟩
      | binary op a b => do
        let ⟨a', ha⟩ ← renameShared σ a
        let ⟨b', hb⟩ ← renameShared σ b
        pure ⟨do op.apply (← a') (← b'), by rw [rename, if_pos h, ha, hb]⟩
      | listTensor items => do
        let ⟨items', hi⟩ ← renameAllShared σ items
        pure ⟨do stack (← items'), by rw [rename, if_pos h, hi]⟩
  else pure ⟨.ok e, by rw [rename.eq_def, if_neg h]⟩

/-- `renameAll` with a table of the subexpressions renamed before. -/
def renameAllShared (σ : Renaming) (es : List (Expr R)) :
    Memo.Run (rename (R := R) σ) (renameAll σ es) :=
  match es with
  | [] => pure ⟨.ok [], by rw [renameAll]⟩
  | e :: es => do
    let ⟨e', he⟩ ← renameShared σ e
    let ⟨es', hes⟩ ← renameAllShared σ es
    pure ⟨do return (← e') :: (← es'), by rw [renameAll, he, hes]⟩

end

/-- The expression with its free indices replaced. -/
def substitute (e : Expr R) (σ : Renaming) : Checked R (Expr R) :=
  if σ.isEmpty then .ok e else (renameShared σ e).value

end Shared

/-- Positions for free indices, paired in order. -/
def fix [DecidableEq R] (e : Expr R) (ids : List IndexId) (positions : List Nat) :
    Checked R (Expr R) :=
  if ids.length = positions.length then
    e.substitute (Renaming.ofPairs (ids.zip (positions.map Index.fixed)))
  else .error .indexValueCount

/-! ## Laws -/

/-- The empty renaming touches nothing. -/
theorem not_touches_of_isEmpty {σ : Renaming} (h : σ.isEmpty) (free : FreeIndices) :
    σ.touches free = false := by
  obtain rfl := List.isEmpty_iff.mp h
  simp [Renaming.touches, Renaming.find?]

/-- Renaming with a table of results is the plain recursion. -/
theorem substitute_eq_rename [DecidableEq R] (e : Expr R) (σ : Renaming) :
    e.substitute σ = rename σ e := by
  unfold substitute
  split
  · next h => rw [rename.eq_def, if_neg (by simp [not_touches_of_isEmpty h])]
  · exact Memo.Run.value_eq _

mutual

/-- Substitution never grows an expression. -/
theorem size_rename {σ : Renaming} {e r : Expr R} (h : rename σ e = .ok r) : r.size ≤ e.size := by
  rw [rename.eq_def] at h
  split at h
  · cases e with
    | leaf t =>
      -- only a zero has free indices, and it stays a leaf
      cases t <;> simp only [zeroOver] at h
      case zero =>
        split at h
        · simp [← Except.ok.inj h]
        · cases h
      all_goals simp [← Except.ok.inj h]
    | unary op a =>
      -- the operator is applied to a renamed operand, which is no larger
      simp only [bind, Except.bind] at h
      split at h
      · cases h
      · next a' ha =>
        have := size_apply_unary h
        have := size_rename ha
        simp only [size_unary]
        omega
    | binary op a b =>
      simp only [bind, Except.bind] at h
      split at h
      · cases h
      · next a' ha =>
        split at h
        · cases h
        · next b' hb =>
          have := size_apply_binary h
          have := size_rename ha
          have := size_rename hb
          simp only [size_binary]
          omega
    | listTensor items =>
      simp only [bind, Except.bind] at h
      split at h
      · cases h
      · next items' hi =>
        have := size_stack h
        have := size_renameAll hi
        simp only [size_listTensor]
        omega
  · simp [← Except.ok.inj h]

/-- Renaming a list does not grow it. -/
theorem size_renameAll {σ : Renaming} {es rs : List (Expr R)} (h : renameAll σ es = .ok rs) :
    totalSize rs ≤ totalSize es := by
  cases es with
  | nil => simp [← Except.ok.inj (renameAll.eq_1 (R := R) σ ▸ h)]
  | cons e es =>
    rw [renameAll] at h
    simp only [bind, Except.bind, pure, Except.pure] at h
    split at h
    · cases h
    · next e' he =>
      split at h
      · cases h
      · next es' hes =>
        have := size_rename he
        have := size_renameAll hes
        simp only [← Except.ok.inj h, totalSize_cons]
        omega

end

end Expr

end WeakForm
