import WeakForm.Expr.Build
import Std.Data.HashMap

/-!
# Replacement of subexpressions

A replacement is decided from the root down: a node that has one is exchanged and
not descended into. The parents of exchanged nodes are built again, so that a
factor replaced by zero folds its product away; nodes whose operands stay the
same are kept as they are.

* `replace` — the replacement, by recursion on the expression;
* `replaceShared` — the same, deciding every shared subexpression once;
* `replaceNodesM`, `replaceTerminalsM` — replacements whose decisions have effects;
* `replaceNodes`, `replaceTerminals`, `replaceWeights` — replacements by functions.
-/

namespace WeakForm.Expr

variable {R : Type} [Scalar R] [DecidableEq R]

/-- A unary node over an operand that may have changed. -/
def reapply (op : UnaryOp) (a a' : Expr R) : Checked R (Expr R) :=
  if a' = a then .ok (unary op a) else op.apply a'

/-- A binary node over operands that may have changed. -/
def reapply₂ (op : BinaryOp) (a b a' b' : Expr R) : Checked R (Expr R) :=
  if a' = a ∧ b' = b then .ok (binary op a b) else op.apply a' b'

/-- A list tensor of items that may have changed. -/
def restack (items items' : List (Expr R)) : Checked R (Expr R) :=
  if items' = items then .ok (listTensor items) else stack items'

mutual

/-- The expression with every node that `f` replaces exchanged. -/
def replace (f : Expr R → Option (Expr R)) (e : Expr R) : Checked R (Expr R) :=
  match f e with
  | some r => .ok r
  | none =>
    match e with
    | leaf t => .ok (leaf t)
    | unary op a => do reapply op a (← replace f a)
    | binary op a b => do reapply₂ op a b (← replace f a) (← replace f b)
    | listTensor items => do restack items (← replaceAll f items)

/-- `replace` on every expression of a list. -/
def replaceAll (f : Expr R → Option (Expr R)) : List (Expr R) → Checked R (List (Expr R))
  | [] => .ok []
  | e :: es => do return (← replace f e) :: (← replaceAll f es)

end

/-! ## Replacement over shared subexpressions -/

/-- The subexpressions decided before, each with what became of it. -/
abbrev Decisions (R : Type) [DecidableEq R] :=
  Std.HashMap (Expr R) (Checked R (Expr R))

section Sharing

variable {m : Type → Type} [Monad m]

/-- What became of an expression: from the table if it is there, else computed and stored. -/
def decideOnce (e : Expr R) (compute : StateT (Decisions R) m (Checked R (Expr R))) :
    StateT (Decisions R) m (Checked R (Expr R)) := do
  match (← get)[e]? with
  | some result => return result
  | none =>
    let result ← compute
    modify (·.insert e result)
    return result

mutual

/-- `replace` with a table of the subexpressions decided before. The decision on a node may have
an effect, which a node that is found in the table does not repeat. -/
def replaceShared (f : Expr R → m (Option (Expr R))) (e : Expr R) :
    StateT (Decisions R) m (Checked R (Expr R)) :=
  decideOnce e do
    match ← f e with
    | some r => return .ok r
    | none =>
      match e with
      | leaf t => return .ok (leaf t)
      | unary op a =>
        let a' ← replaceShared f a
        return do reapply op a (← a')
      | binary op a b =>
        let a' ← replaceShared f a
        let b' ← replaceShared f b
        return do reapply₂ op a b (← a') (← b')
      | listTensor items =>
        let items' ← replaceAllShared f items
        return do restack items (← items')

/-- `replaceAll` with a table of the subexpressions decided before. -/
def replaceAllShared (f : Expr R → m (Option (Expr R))) (es : List (Expr R)) :
    StateT (Decisions R) m (Checked R (List (Expr R))) :=
  match es with
  | [] => return .ok []
  | e :: es => do
    let e' ← replaceShared f e
    let es' ← replaceAllShared f es
    return do return (← e') :: (← es')

end

/-- Exchange every node that `f` replaces, from the root down, where deciding on a node has an
effect. -/
def replaceNodesM (f : Expr R → m (Option (Expr R))) (e : Expr R) : m (Checked R (Expr R)) :=
  (replaceShared f e).run' ∅

/-- Exchange every terminal that `f` replaces, where deciding on a terminal has an effect. -/
def replaceTerminalsM (f : Terminal R → m (Option (Expr R))) (e : Expr R) :
    m (Checked R (Expr R)) :=
  replaceNodesM (fun | leaf t => f t | _ => pure none) e

end Sharing

/-- Exchange every node that `f` replaces, from the root down. -/
def replaceNodes (f : Expr R → Option (Expr R)) (e : Expr R) : Checked R (Expr R) :=
  Id.run (replaceNodesM (fun e => pure (f e)) e)

/-- Exchange every terminal that `f` replaces. -/
def replaceTerminals (f : Terminal R → Option (Expr R)) (e : Expr R) : Checked R (Expr R) :=
  replaceNodes (fun | leaf t => f t | _ => none) e

/-- Exchange every subexpression found in a table. -/
def replaceEntries (table : Std.HashMap (Expr R) (Expr R)) (e : Expr R) : Checked R (Expr R) :=
  replaceNodes (fun e => table[e]?) e

/-- Every quadrature weight replaced by one: the weight is applied once per point,
outside the integrand. -/
def replaceWeights (e : Expr R) : Checked R (Expr R) :=
  replaceTerminals
    (fun
      | .geometry g => if g.kind = .quadratureWeight then some (real Scalar.one) else none
      | _ => none) e

end WeakForm.Expr
