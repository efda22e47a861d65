import Mathlib.Logic.Relation
import WeakForm.Proofs.Typing

/-!
# Normalization ends

Normalization goes on with expressions that it has just made: the renamed body of a reduced
component tensor, and the item that was selected from a list. Neither is an operand of what
it was called on. Both have fewer nodes, since the passes before have not added any.

* `size_rebuild`, `size_replace` — building over smaller operands, and replacement;
* `Calls` — the calls that the pass makes on one expression;
* `Calls.size_lt`, `acc_calls` — they are on smaller expressions, so they end;
* `step_of_calls` — the pass depends on nothing but these calls;
* `eq_normalForm_of_step` — its recursive equation has one solution;
* `normalize_terminates` — the result.
-/

namespace WeakForm.Expr

variable {R : Type} {a b e r : Expr R}

/-! ## Sizes -/

/-- Smaller items have a smaller total. -/
theorem totalSize_le {es es' : List (Expr R)}
    (h : List.Forall₂ (fun a' a : Expr R => a'.size ≤ a.size) es' es) :
    totalSize es' ≤ totalSize es := by
  induction h with
  | nil => exact Nat.le_refl _
  | cons hle _ ih =>
    rw [totalSize_cons, totalSize_cons]
    omega

variable [Scalar R]

/-- Over operands that have not grown, a root is built that has not grown. -/
theorem size_rebuild {operands : List (Expr R)}
    (hle : List.Forall₂ (fun a' a : Expr R => a'.size ≤ a.size) operands e.operands)
    (h : e.rebuild operands = .ok r) : r.size ≤ e.size := by
  cases e with
  | leaf t =>
    cases h
    exact Nat.le_refl _
  | unary op a =>
    -- an operator is no larger than its operand and itself
    cases hle with
    | cons ha _ =>
      have := size_apply_unary h
      rw [size_unary]
      omega
  | binary op a b =>
    cases hle with
    | cons ha hle =>
      cases hle with
      | cons hb _ =>
        -- nor is a binary operator
        have := size_apply_binary h
        rw [size_binary]
        omega
  | listTensor items =>
    -- nor is a list
    have := size_stack h
    have hle : List.Forall₂ _ operands items := hle
    have := totalSize_le hle
    rw [size_listTensor]
    omega

variable [DecidableEq R]

/-- Applying an operator again adds no nodes. -/
theorem size_reapply {op : UnaryOp} {a' : Expr R} (ha : a'.size ≤ a.size)
    (h : reapply op a a' = .ok r) : r.size ≤ (unary op a).size := by
  unfold reapply at h
  split at h
  · cases h
    exact Nat.le_refl _
  · exact size_rebuild (e := unary op a) (.cons ha .nil) h

/-- Applying a binary operator again adds no nodes. -/
theorem size_reapply₂ {op : BinaryOp} {a' b' : Expr R} (ha : a'.size ≤ a.size)
    (hb : b'.size ≤ b.size) (h : reapply₂ op a b a' b' = .ok r) :
    r.size ≤ (binary op a b).size := by
  unfold reapply₂ at h
  split at h
  · cases h
    exact Nat.le_refl _
  · exact size_rebuild (e := binary op a b) (.cons ha (.cons hb .nil)) h

/-- Building a list again adds no nodes. -/
theorem size_restack {items items' : List (Expr R)}
    (hi : List.Forall₂ (fun a' a : Expr R => a'.size ≤ a.size) items' items)
    (h : restack items items' = .ok r) : r.size ≤ (listTensor items).size := by
  unfold restack at h
  split at h
  · cases h
    exact Nat.le_refl _
  · exact size_rebuild (e := listTensor items) hi h

/-- Replacement by what is no larger never grows an expression. -/
theorem size_replace {f : Expr R → Option (Expr R)} (hf : ∀ s s', f s = some s' → s'.size ≤ s.size)
    (h : replace f e = .ok r) : r.size ≤ e.size := by
  replace h := replaceRun_of_replace h
  induction h with
  | exchange hs => exact hf _ _ hs
  | leaf => exact Nat.le_refl _
  | unary _ _ hr ih => exact size_reapply ih hr
  | binary _ _ _ hr iha ihb => exact size_reapply₂ iha ihb hr
  | stack _ hl _ hr ih =>
    exact size_restack (List.forall₂_iff_zip.mpr ⟨hl, fun hm => ih _ _ hm⟩).flip hr

/-- A weight is one node, and so is the one that it is replaced by. -/
theorem size_replaceWeights (h : e.replaceWeights = .ok r) : r.size ≤ e.size := by
  rw [replaceWeights_eq] at h
  refine size_replace (fun s s' hs => ?_) h
  rw [eq_one_of_weightToOne hs]
  have := size_pos s
  simpa [real] using this

/-- **Normalization never grows an expression.** -/
theorem size_normalize (h : normalize e = .ok r) : r.size ≤ e.size := by
  rw [normalize_eq] at h
  obtain ⟨e', he', h⟩ := bind_eq_ok.mp h
  exact Nat.le_trans (size_normalForm h) (size_replaceWeights he')

/-! ## Calls -/

/-- `Calls e d`: on `e`, the pass calls itself on `d`. -/
inductive Calls : Expr R → Expr R → Prop
  | operand {op : UnaryOp} {a : Expr R} (hm : (unary op a).isModifiedTerminal = false) :
      Calls (unary op a) a
  /-- The renamed body of a component tensor, or the selected item of a list. -/
  | reduced {is : List Index} {a a' body : Expr R}
      (hm : (unary (.indexed is) a).isModifiedTerminal = false) (ha : normalForm a = .ok a')
      (hb : reduced? a' is = some (.ok body)) : Calls (unary (.indexed is) a) body
  | left {op : BinaryOp} {a b : Expr R} : Calls (binary op a b) a
  | right {op : BinaryOp} {a b : Expr R} : Calls (binary op a b) b
  | item {items : List (Expr R)} {item : Expr R} (hm : item ∈ items) :
      Calls (listTensor items) item

/-- **Each call is on an expression with fewer nodes.** -/
theorem Calls.size_lt {d : Expr R} (h : Calls e d) : d.size < e.size := by
  cases h with
  | operand =>
    rw [size_unary]
    omega
  -- what an indexing is reduced to is smaller than the indexing
  | reduced _ ha hb =>
    rw [size_unary]
    exact size_reduced?_lt hb ha
  | left | right =>
    rw [size_binary]
    omega
  | item hm => exact size_lt_of_mem hm

/-- And so is every call made on the way. -/
theorem size_lt_of_transGen {d : Expr R} (h : Relation.TransGen Calls e d) : d.size < e.size := by
  induction h with
  | single h => exact h.size_lt
  | tail _ h ih => exact Nat.lt_trans h.size_lt ih

/-- There is no endless chain of calls. -/
theorem acc_calls (e : Expr R) : Acc (fun d e => Calls e d) e :=
  (Subrelation.wf (fun h => Calls.size_lt h) (measure Expr.size).wf).apply e

/-- **The pass depends on nothing but its calls.** -/
theorem step_of_calls {w : Expr R → Checked R (Expr R)}
    (hw : ∀ d, Calls e d → w d = normalForm d) : step w e = normalForm e := by
  rw [normalForm_eq, step.eq_def, step.eq_def]
  split
  -- a chain is balanced, which calls nothing
  · rfl
  · next hm =>
    rw [Bool.not_eq_true] at hm
    cases e with
    | leaf t => rfl
    | unary op a =>
      have ha := hw a (.operand hm)
      simp only [stepUnary, ha]
      split
      · next is hop =>
        obtain rfl : op = .indexed is := by
          cases op <;> cases hop
          rfl
        -- the second call depends on what the first one returned
        cases hr : normalForm a with
        | error => rfl
        | ok a' =>
          show stepIndexed w is a' = stepIndexed normalForm is a'
          unfold stepIndexed
          split
          · next body hb =>
            cases body with
            | error => rfl
            | ok body => exact hw body (.reduced hm hr hb)
          · rfl
      · rfl
    -- the calls are those on the operands
    | binary op a b => simp only [hw a .left, hw b .right]
    | listTensor items => simp only [mapM_congr fun item h => hw item (.item h)]

/-- The pass is the only solution of its recursive equation. -/
theorem eq_normalForm_of_step {w : Expr R → Checked R (Expr R)} (hw : ∀ e, w e = step w e)
    (e : Expr R) : w e = normalForm e := by
  induction acc_calls e with
  | intro e _ ih =>
    rw [hw e]
    exact step_of_calls ih

/-- **Normalization ends, since it never grows an expression.** Neither substitution nor
balancing nor building over smaller operands adds nodes, nor does the pass as a whole; what it
calls itself on while it visits an expression, and nothing else decides its result, has
fewer nodes than the expression; so every chain of calls ends, and the recursion has one
result for every expression. -/
theorem normalize_terminates (e : Expr R) :
    (∀ σ r, e.substitute σ = .ok r → r.size ≤ e.size) ∧
      (∀ r, balance e = .ok r → r.size ≤ e.size) ∧
      (∀ operands r, List.Forall₂ (fun a' a : Expr R => a'.size ≤ a.size) operands e.operands →
        e.rebuild operands = .ok r → r.size ≤ e.size) ∧
      (∀ r, normalize e = .ok r → r.size ≤ e.size) ∧
      (∀ d, Relation.TransGen Calls e d → d.size < e.size) ∧
      (∀ w, (∀ d, Calls e d → w d = normalForm d) → step w e = normalForm e) ∧
      Acc (fun d e => Calls e d) e ∧
      ∀ w, (∀ e, w e = step w e) → w e = normalForm e := by
  refine ⟨fun σ r h => ?_, fun r => size_balance, fun operands r => size_rebuild,
    fun r => size_normalize, fun d => size_lt_of_transGen, fun w => step_of_calls, acc_calls e,
    fun w hw => eq_normalForm_of_step hw e⟩
  rw [substitute_eq_rename] at h
  exact size_rename h

/-- The body of a contracted tensor is visited under its new index. -/
theorem normalize_terminates_contraction :
    Calls (Contraction.integrand 3) (Contraction.contraction 3) ∧
      (Contraction.contraction 3).size < (Contraction.integrand 3).size ∧
      normalize (Contraction.integrand 3) = .ok (Contraction.contraction 3) ∧
      (Contraction.contraction 3).size ≤ (Contraction.integrand 3).size := by
  have hcall : Calls (Contraction.integrand 3) (Contraction.contraction 3) := by
    refine .reduced (by rfl) Contraction.normalForm_tensor ?_
    show some ((Contraction.contraction 1).substitute [(1, .free 3)]) = _
    rw [substitute_eq_rename]
    with_unfolding_all rfl
  have hnormal : normalize (Contraction.integrand 3) = .ok (Contraction.contraction 3) :=
    Contraction.normalize_integrand (by with_unfolding_all rfl) (by cbv) (by cbv)
  obtain ⟨-, -, -, hsize, hcalls, -⟩ := normalize_terminates (Contraction.integrand 3)
  exact ⟨hcall, hcalls _ (.single hcall), hnormal, hsize _ hnormal⟩

end WeakForm.Expr
