import WeakForm.Signature

/-!
# Expressions

An expression is a terminal, an operator over one or two operands, or a list of
expressions stacked into a tensor. Its signature is stored with the node, so
shape, free indices, domain and digest are read in constant time, and two
expressions are compared by identity first, by digest second and only then by
structure.

The constructors of the type accept any operands. Expressions that obey the
shape and index rules are built by the functions of `WeakForm.Expr.Build`.

* `induct` — induction over operands and items;
* `signature_leaf`, `signature_unary`, `signature_binary`, `signature_stack` —
  the signature of a node is computed from the signatures of its operands.
-/

namespace WeakForm

/-- A symbolic expression over the numbers `R`. -/
inductive Expr (R : Type) where
  | leaf (t : Terminal R)
  | unary (op : UnaryOp) (a : Expr R)
  | binary (op : BinaryOp) (a b : Expr R)
  /-- Tensor stacked from items along a new leading axis. -/
  | listTensor (items : List (Expr R))
with
  @[computed_field] signature : (R : Type) → Expr R → Signature
    | _, .leaf t => t.signature
    | _, .unary op a => op.signature a.signature
    | _, .binary op a b => op.signature a.signature b.signature
    | _, .listTensor items => Signature.stack (items.map fun item => item.signature)

namespace Expr

variable {R : Type}

@[simp] theorem signature_leaf (t : Terminal R) : (leaf t).signature = t.signature := by
  simp [signature]

@[simp] theorem signature_unary (op : UnaryOp) (a : Expr R) :
    (unary op a).signature = op.signature a.signature := by
  simp [signature]

@[simp] theorem signature_binary (op : BinaryOp) (a b : Expr R) :
    (binary op a b).signature = op.signature a.signature b.signature := by
  simp [signature]

@[simp] theorem signature_stack (items : List (Expr R)) :
    (listTensor items).signature = Signature.stack (items.map (·.signature)) := by
  simp [signature]

/-- Induction on expressions: the items of a list tensor are smaller than it. -/
@[induction_eliminator]
theorem induct {motive : Expr R → Prop} (leaf : ∀ t, motive (.leaf t))
    (unary : ∀ op a, motive a → motive (.unary op a))
    (binary : ∀ op a b, motive a → motive b → motive (.binary op a b))
    (listTensor : ∀ items, (∀ item ∈ items, motive item) → motive (.listTensor items)) :
    ∀ e, motive e
  | .leaf t => leaf t
  | .unary op a => unary op a (induct leaf unary binary listTensor a)
  | .binary op a b =>
    binary op a b (induct leaf unary binary listTensor a) (induct leaf unary binary listTensor b)
  | .listTensor items =>
    listTensor items fun item _ => induct leaf unary binary listTensor item

/-! ## Equality -/

section Equality

variable [DecidableEq R]

mutual

/-- Equality by identity, then by digest, then by structure. -/
def decEq (a b : Expr R) : Decidable (a = b) :=
  withPtrEqDecEq a b fun _ =>
    if h : a.signature.digest = b.signature.digest then
      match a, b with
      | leaf s, leaf t =>
        if ht : s = t then isTrue (by rw [ht]) else isFalse (by simp [ht])
      | unary f a, unary g b =>
        if hf : f = g then
          match decEq a b with
          | isTrue h => isTrue (by rw [hf, h])
          | isFalse h => isFalse (by simp [h])
        else isFalse (by simp [hf])
      | binary f a b, binary g c d =>
        if hf : f = g then
          match decEq a c with
          | isTrue h =>
            match decEq b d with
            | isTrue h' => isTrue (by rw [hf, h, h'])
            | isFalse h' => isFalse (by simp [h'])
          | isFalse h => isFalse (by simp [h])
        else isFalse (by simp [hf])
      | listTensor as, listTensor bs =>
        match decEqList as bs with
        | isTrue h => isTrue (by rw [h])
        | isFalse h => isFalse (by simp [h])
      | leaf _, unary _ _ | leaf _, binary _ _ _ | leaf _, listTensor _ => isFalse nofun
      | unary _ _, leaf _ | unary _ _, binary _ _ _ | unary _ _, listTensor _ => isFalse nofun
      | binary _ _ _, leaf _ | binary _ _ _, unary _ _ | binary _ _ _, listTensor _ => isFalse nofun
      | listTensor _, leaf _ | listTensor _, unary _ _ | listTensor _, binary _ _ _ => isFalse nofun
    else isFalse fun e => h (by rw [e])

/-- Equality of lists of expressions, item by item. -/
def decEqList (as bs : List (Expr R)) : Decidable (as = bs) :=
  match as, bs with
  | [], [] => isTrue rfl
  | [], _ :: _ | _ :: _, [] => isFalse nofun
  | a :: as, b :: bs =>
    match decEq a b with
    | isTrue h =>
      match decEqList as bs with
      | isTrue h' => isTrue (by rw [h, h'])
      | isFalse h' => isFalse (by simp [h'])
    | isFalse h => isFalse (by simp [h])

end

instance : DecidableEq (Expr R) := decEq

end Equality

/-- Expressions are hashed by their stored digest. -/
instance : Hashable (Expr R) := ⟨fun e => e.signature.digest⟩

instance : Inhabited (Expr R) := ⟨leaf (.zero [] [])⟩

/-! ## Attributes -/

/-- Value shape. -/
def shape (e : Expr R) : List Nat := e.signature.shape

/-- Number of axes. -/
def rank (e : Expr R) : Nat := e.shape.length

/-- Free indices, in ascending order. -/
def free (e : Expr R) : FreeIndices := e.signature.free

/-- Domain of the first terminal, depth first. -/
def domain? (e : Expr R) : Option Domain := e.signature.domain?

/-- The value is constant on each cell. -/
def isCellwiseConstant (e : Expr R) : Bool := e.signature.isCellwiseConstant

/-- Without axes and without free indices. -/
def isScalar (e : Expr R) : Bool := e.shape.isEmpty && e.free.isEmpty

def isTerminal : Expr R → Bool
  | leaf _ => true
  | unary _ _ | binary _ _ _ | listTensor _ => false

/-- The literal an expression consists of. A zero is not one. -/
def literal? : Expr R → Option (Literal R)
  | leaf (.literal v) => some v
  | _ => none

/-- A literal or a zero of any shape. -/
def isConstantValue : Expr R → Bool
  | leaf (.literal _) | leaf (.zero _ _) => true
  | _ => false

/-- A zero of any shape, or a literal that is zero. -/
def isZero [Scalar R] : Expr R → Bool
  | leaf (.zero _ _) => true
  | leaf (.literal v) => v.isZero
  | _ => false

def isOne [Scalar R] : Expr R → Bool
  | leaf (.literal v) => v.isOne
  | _ => false

/-- The value of a scalar literal or a scalar zero. -/
def value? [Scalar R] : Expr R → Option R
  | leaf (.literal v) => some v.value
  | leaf (.zero [] []) => some Scalar.zero
  | _ => none

/-- The name of an expression's root in diagnostics. -/
def kind : Expr R → String
  | leaf (.argument _) => "argument"
  | leaf (.coefficient _) => "coefficient"
  | leaf (.geometry _) => "geometric_quantity"
  | leaf (.literal _) => "scalar_value"
  | leaf (.zero _ _) => "zero"
  | unary op _ => op.name
  | binary op _ _ => op.name
  | listTensor _ => "list_tensor"

/-- The operands, in order. Indices are not operands. -/
def operands : Expr R → List (Expr R)
  | leaf _ => []
  | unary _ a => [a]
  | binary _ a b => [a, b]
  | listTensor items => items

/-- A terminal under modifiers only. It may still be a tensor or have free indices. -/
def isModifiedTerminal : Expr R → Bool
  | leaf _ => true
  | unary op a => op.isModifier && a.isModifiedTerminal
  | binary _ _ _ | listTensor _ => false

/-- The first terminal, along first operands. -/
def core : Expr R → Option (Terminal R)
  | leaf t => some t
  | unary _ a => a.core
  | binary _ a _ => a.core
  | listTensor [] => none
  | listTensor (a :: _) => a.core

/-- Number of nodes, counting an expression that occurs twice as two. -/
def size : Expr R → Nat
  | leaf _ => 1
  | unary _ a => a.size + 1
  | binary _ a b => a.size + b.size + 1
  | listTensor items => (items.map size).foldr (· + ·) 0 + 1

/-- Number of nodes of the expressions of a list. -/
def totalSize (es : List (Expr R)) : Nat :=
  (es.map size).foldr (· + ·) 0

end Expr

end WeakForm
