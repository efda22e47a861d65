import WeakForm.Digest

/-!
# Signatures

What is known of an expression from its root: the shape of its value, its free
indices, the domain of its first terminal, whether it is constant on each cell,
and a digest of its structure. Every operator computes its signature from the
signatures of its operands, so the signature of a shared expression is computed
once.

* `Terminal.signature`, `UnaryOp.signature`, `BinaryOp.signature`,
  `Signature.stack` — one rule per operator.
-/

namespace WeakForm

/-- The attributes of an expression that are determined by its operands'. -/
structure Signature where
  shape : List Nat
  free : FreeIndices
  domain? : Option Domain
  isCellwiseConstant : Bool
  digest : UInt64
  deriving Repr

namespace Signature

/-- The free indices that index a shape, one per free entry. -/
def indexedFree (is : List Index) (shape : List Nat) : FreeIndices :=
  FreeIndices.sort <| (is.zip shape).filterMap fun
    | (.free i, dim) => some ⟨i, dim⟩
    | (.fixed _, _) => none

/-- The free directions of a derivative in a space of dimension `gdim`, each once. -/
def directionFree (is : List Index) (gdim : Nat) : FreeIndices :=
  FreeIndices.sort <| (is.filterMap Index.id?).eraseDups.map fun i => ⟨i, gdim⟩

/-- The dimension of physical space, zero where no terminal says. -/
def gdim (s : Signature) : Nat :=
  (s.domain?.map (·.gdim)).getD 0

/-- The dimension of the reference cell, zero where no terminal says. -/
def tdim (s : Signature) : Nat :=
  (s.domain?.map (·.tdim)).getD 0

/-- A tensor stacked from items along a new leading axis. -/
def stack (items : List Signature) : Signature where
  shape := items.length :: (items.head?.map (·.shape)).getD []
  free := (items.head?.map (·.free)).getD []
  domain? := items.findSome? (·.domain?)
  isCellwiseConstant := items.all (·.isCellwiseConstant)
  digest := Digest.mix 401 (Digest.list (·.digest) items)

end Signature

def Terminal.signature {R : Type} (t : Terminal R) : Signature where
  shape := t.shape
  free := t.free
  domain? := t.domain?
  isCellwiseConstant := t.isCellwiseConstant
  digest := Digest.terminal t

def UnaryOp.shape (op : UnaryOp) (a : Signature) : List Nat :=
  match op with
  | math _ | indexed _ => []
  | componentTensor is => is.map fun i => (a.free.dim? i).getD 0
  | grad => a.shape ++ [a.gdim]
  | referenceGrad => a.shape ++ [a.tdim]
  | abs | indexSum _ | restricted _ | spatialDerivative _ | averaged _ | labelled _ => a.shape

def UnaryOp.free (op : UnaryOp) (a : Signature) : FreeIndices :=
  match op with
  | indexSum i => a.free.erase i
  | indexed is => a.free.union (Signature.indexedFree is a.shape)
  | componentTensor is => is.foldl FreeIndices.erase a.free
  | spatialDerivative is => a.free.union (Signature.directionFree is a.gdim)
  | math _ | abs | restricted _ | grad | referenceGrad | averaged _ | labelled _ => a.free

def UnaryOp.signature (op : UnaryOp) (a : Signature) : Signature where
  shape := op.shape a
  free := op.free a
  domain? := a.domain?
  isCellwiseConstant := a.isCellwiseConstant
  digest := Digest.mix (Digest.unaryOp op) a.digest

def BinaryOp.shape (op : BinaryOp) (a b : Signature) : List Nat :=
  match op with
  | sum | division => a.shape
  | product => if a.shape.isEmpty then b.shape else a.shape
  | power => []

def BinaryOp.free (op : BinaryOp) (a b : Signature) : FreeIndices :=
  match op with
  | sum | power => a.free
  | product | division => a.free.union b.free

def BinaryOp.signature (op : BinaryOp) (a b : Signature) : Signature where
  shape := op.shape a b
  free := op.free a b
  domain? := a.domain?.or b.domain?
  isCellwiseConstant := a.isCellwiseConstant && b.isCellwiseConstant
  digest := Digest.mix (Digest.binaryOp op) (Digest.mix a.digest b.digest)

end WeakForm
