import WeakForm.Expr.Size

/-!
# Balanced modifier chains

The modifiers of a terminal are in balance when derivatives stand next to the
terminal, then averages, then restrictions, and indexing stands outermost.
Balancing sorts the modifiers of a chain into that order and keeps the order of
those of one kind. A chain with a gradient of an indexed quantity is left as it
is: moving the index would change the shapes in between.

* `chain?` — the modifiers of a terminal, innermost first;
* `balance` — the chain in balance;
* `size_balance` — balancing never grows an expression.
-/

namespace WeakForm

/-- Where a modifier stands in a balanced chain, innermost first. -/
inductive Layer where
  | derivative | average | restriction | index
  deriving DecidableEq, Repr

namespace Layer

def rank : Layer → Nat
  | derivative => 0
  | average => 1
  | restriction => 2
  | index => 3

end Layer

namespace UnaryOp

/-- The layer of a modifier. Other operators are not part of a chain. -/
def layer? : UnaryOp → Option Layer
  | grad | referenceGrad | spatialDerivative _ => some .derivative
  | averaged _ => some .average
  | restricted _ => some .restriction
  | indexed _ => some .index
  | math _ | abs | indexSum _ | componentTensor _ | labelled _ => none

/-- Modifiers in the order of their layers. -/
def layerLE (f g : UnaryOp) : Bool :=
  match f.layer?, g.layer? with
  | some l, some m => l.rank ≤ m.rank
  | _, _ => true

/-- The gradient operators, which add an axis. -/
def isGradient : UnaryOp → Bool
  | grad | referenceGrad => true
  | _ => false

def isIndexing : UnaryOp → Bool
  | indexed _ => true
  | _ => false

/-- Whether a gradient stands outside an indexing, in operators listed innermost first. -/
def gradientOfIndexed : List UnaryOp → Bool
  | [] => false
  | op :: ops => (op.isIndexing && ops.any isGradient) || gradientOfIndexed ops

end UnaryOp

namespace Expr

variable {R : Type}

/-- The modifiers of a terminal, innermost first, put in front of `outer`. -/
def chainBelow (outer : List UnaryOp) : Expr R → Option (List UnaryOp × Terminal R)
  | leaf t => some (outer, t)
  | unary op a => if op.isModifier then chainBelow (op :: outer) a else none
  | binary _ _ _ | listTensor _ => none

/-- The modifiers of a modified terminal, innermost first, and the terminal. -/
def chain? (e : Expr R) : Option (List UnaryOp × Terminal R) :=
  chainBelow [] e

/-- The terminal under modifiers applied in order. -/
def applyAll [Scalar R] (ops : List UnaryOp) (a : Expr R) : Checked R (Expr R) :=
  ops.foldlM (fun a op => op.apply a) a

/-- The modifiers of a modified terminal in balance. -/
def balance [Scalar R] (e : Expr R) : Checked R (Expr R) :=
  match e.chain? with
  | none => .ok e
  | some (ops, t) =>
    if UnaryOp.gradientOfIndexed ops then .ok e
    else
      -- the sort is stable: modifiers of one layer stay in order
      let sorted := ops.mergeSort UnaryOp.layerLE
      if sorted = ops then .ok e else applyAll sorted (leaf t)

/-! ## Size -/

/-- A chain has one node for each modifier, and one for its terminal. -/
theorem size_chainBelow {outer ops : List UnaryOp} {e : Expr R} {t : Terminal R}
    (h : chainBelow outer e = some (ops, t)) : ops.length + 1 = outer.length + e.size := by
  induction e generalizing outer with
  | leaf s =>
    simp only [chainBelow, Option.some.injEq, Prod.mk.injEq] at h
    simp [h.1]
  | unary op a ih =>
    rw [chainBelow] at h
    split at h
    · have := ih h
      simp only [List.length_cons] at this
      simp only [size_unary]
      omega
    · cases h
  | binary op a b _ _ => simp [chainBelow] at h
  | listTensor items _ => simp [chainBelow] at h

/-- Each modifier that is put back adds at most one node. -/
theorem size_applyAll [Scalar R] {ops : List UnaryOp} {a r : Expr R}
    (h : applyAll ops a = .ok r) : r.size ≤ a.size + ops.length := by
  induction ops generalizing a with
  | nil => simp [← Except.ok.inj h]
  | cons op ops ih =>
    rw [applyAll, List.foldlM_cons] at h
    cases ha : op.apply a with
    | error b => rw [ha] at h; cases h
    | ok a' =>
      rw [ha] at h
      have := ih (a := a') h
      have := size_apply_unary ha
      simp only [List.length_cons]
      omega

/-- Balancing never grows an expression. -/
theorem size_balance [Scalar R] {e r : Expr R} (h : balance e = .ok r) : r.size ≤ e.size := by
  unfold balance at h
  split at h
  · simp [← Except.ok.inj h]
  · next ops t hc =>
    -- the modifiers taken off and the terminal are all of the expression
    have hs := size_chainBelow hc
    split at h
    · simp [← Except.ok.inj h]
    · dsimp only at h
      split at h
      · simp [← Except.ok.inj h]
      -- sorting keeps the number of modifiers
      · have := size_applyAll h
        simp only [List.length_mergeSort, size_leaf, List.length_nil] at this hs
        omega

end Expr

end WeakForm
