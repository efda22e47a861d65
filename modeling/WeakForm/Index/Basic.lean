/-!
# Indices

An axis of a tensor is addressed by a *fixed* position or by a *free* index,
which stands for every position of a range at once. Free indices carry an
identity, and an expression knows the set of its free indices together with the
dimension each one ranges over.

* `Index` — a fixed position or a free index;
* `FreeIndices` — the free indices of an expression, in ascending order of
  identity;
* `FreeIndices.union`, `FreeIndices.conflict?` — the union of two such lists
  and the first index the two disagree about;
* `FreeIndices.merge` — the union, where there is no such index;
* `FreeIndices.erase`, `FreeIndices.dim?` — removal and look-up.
-/

namespace WeakForm

/-- Identity of a free index. -/
abbrev IndexId := Nat

/-- One entry of an indexing operation. -/
inductive Index where
  /-- A position on the axis. -/
  | fixed (position : Nat)
  /-- Every position on the axis, named by a free index. -/
  | free (id : IndexId)
  deriving DecidableEq, Inhabited, Repr

namespace Index

/-- The position of a fixed index. -/
def position? : Index → Option Nat
  | .fixed p => some p
  | .free _ => none

/-- The identity of a free index. -/
def id? : Index → Option IndexId
  | .fixed _ => none
  | .free i => some i

/-- Fixed indices come before free ones, each kind in ascending order. -/
instance : Ord Index where
  compare
    | .fixed p, .fixed q => compare p q
    | .fixed _, .free _ => .lt
    | .free _, .fixed _ => .gt
    | .free i, .free j => compare i j

/-- A fixed index is written as its position, a free one as `i_` and its identity. -/
def text : Index → String
  | .fixed p => toString p
  | .free i => "i_" ++ toString i

/-- Indices in the order of `compare`. -/
def sort (is : List Index) : List Index :=
  is.mergeSort fun a b => (compare a b).isLE

end Index

/-- A free index and the dimension it ranges over. -/
structure FreeIndex where
  id : IndexId
  dim : Nat
  deriving DecidableEq, Inhabited, Repr

/-- The free indices of an expression. -/
abbrev FreeIndices := List FreeIndex

/-- An index that two operands range over different dimensions with. -/
structure DimensionConflict where
  id : IndexId
  left : Nat
  right : Nat
  deriving DecidableEq, Repr

namespace FreeIndices

/-- Ascending identities, each at most once. -/
def Sorted (free : FreeIndices) : Prop :=
  free.Pairwise fun a b => a.id < b.id

instance (free : FreeIndices) : Decidable free.Sorted :=
  inferInstanceAs (Decidable (List.Pairwise _ _))

/-- The dimension of an index, if it is free. -/
def dim? (free : FreeIndices) (i : IndexId) : Option Nat :=
  (free.find? fun f => f.id == i).map (·.dim)

/-- Whether an index is free. -/
def has (free : FreeIndices) (i : IndexId) : Bool :=
  free.any fun f => f.id == i

/-- All free indices but one. -/
def erase (free : FreeIndices) (i : IndexId) : FreeIndices :=
  free.filter fun f => f.id != i

/-- The dimensions, in order. -/
def dims (free : FreeIndices) : List Nat :=
  free.map (·.dim)

/-- The number of assignments of positions to the free indices. -/
def size (free : FreeIndices) : Nat :=
  free.dims.foldr (· * ·) 1

/-- Free indices in ascending order of identity. -/
def sort (free : FreeIndices) : FreeIndices :=
  free.mergeSort fun a b => a.id ≤ b.id

/-- The union of two sorted lists. Of an index in both, the left entry is kept. -/
def union : FreeIndices → FreeIndices → FreeIndices
  | [], b => b
  | a, [] => a
  | x :: a, y :: b =>
    if x.id < y.id then x :: union a (y :: b)
    else if y.id < x.id then y :: union (x :: a) b
    else x :: union a b
  termination_by a b => a.length + b.length

/-- The first index of two sorted lists that they give different dimensions. -/
def conflict? : FreeIndices → FreeIndices → Option DimensionConflict
  | [], _ => none
  | _, [] => none
  | x :: a, y :: b =>
    if x.id < y.id then conflict? a (y :: b)
    else if y.id < x.id then conflict? (x :: a) b
    else if x.dim = y.dim then conflict? a b
    else some ⟨x.id, x.dim, y.dim⟩
  termination_by a b => a.length + b.length

/-- The union of two sorted lists, if they give no index two dimensions. -/
def merge (a b : FreeIndices) : Except DimensionConflict FreeIndices :=
  match a.conflict? b with
  | some e => .error e
  | none => .ok (a.union b)

end FreeIndices

end WeakForm
