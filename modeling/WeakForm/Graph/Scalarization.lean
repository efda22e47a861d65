import WeakForm.Expr.Substitution
import WeakForm.Graph.Basic
import WeakForm.Index.Layout

/-!
# Scalarization

An expression with axes and free indices stands for one scalar expression per
component and per assignment of positions to its free indices. They are listed
row-major, with the axes outside and the free indices, in ascending order, inside.

* `FreeIndices.strides`, `offset` — how far the positions of indices move a place in a list;
* `Expr.scalarize` — the scalar components of an expression, by recursion;
* `Expr.scalarizeAll` — the same for several expressions, where shared
  subexpressions are scalarized once (`scalarizeAll_eq`);
* `ScalarGraph.ofTargets` — the graph of all components of several expressions.
-/

namespace WeakForm

namespace FreeIndices

/-- The stride of each index of `out` in a list that is laid out by the indices `free`, and the
stride that an index in front of all of them would have. An index that is not in `free` does not
move the place in the list. -/
def strides (free : FreeIndices) : (out : FreeIndices) → List Nat × Nat
  | [] => ([], 1)
  | f :: out =>
    -- the last index runs fastest, so the strides behind are known first
    let (behind, stride) := strides free out
    match free.dim? f.id with
    | some dim => (stride :: behind, stride * dim)
    | none => (0 :: behind, stride)

/-- The free indices in front of an index. -/
def before (free : FreeIndices) (i : IndexId) : FreeIndices :=
  free.filter (·.id < i)

/-- The free indices behind an index. -/
def behind (free : FreeIndices) (i : IndexId) : FreeIndices :=
  free.filter (i < ·.id)

/-- The place of an index in a list of free indices. -/
def place (free : FreeIndices) (i : IndexId) {R : Type} : Checked R Nat :=
  match free.findIdx? (·.id == i) with
  | some k => .ok k
  | none => .error (.indexMissing i)

end FreeIndices

/-- How far positions move a place, given the stride of each. -/
def offset : List Nat → List Nat → Nat
  | position :: positions, stride :: strides => position * stride + offset positions strides
  | _, _ => 0

/-- Where the position on an axis comes from: it is fixed, or that of a free index, which is
told by its place among the free indices. -/
inductive AxisSource where
  | fixed (position : Nat)
  | free (place : Nat)

namespace AxisSource

/-- The source of an axis that is indexed, among the free indices of the result. -/
def ofIndex {R : Type} (out : FreeIndices) : Index → Checked R AxisSource
  | .fixed p => .ok (.fixed p)
  | .free i => .free <$> out.place i

/-- The position on the axis at positions for the free indices. -/
def position (positions : List Nat) : AxisSource → Nat
  | .fixed p => p
  | .free k => positions.getD k 0

end AxisSource

namespace Expr

variable {R : Type}

/-- The entry at a place in a list of scalar components. -/
def scalarAt (scalars : Array (Expr R)) (k : Nat) : Result R (Expr R) :=
  match scalars[k]? with
  | some s => .ok s
  | none => .error (.breach .outOfBounds)

/-- How far one component is from the next in the list of a factor. A factor without axes has the
same entries for all components of the product. -/
def block (e : Expr R) : Nat :=
  if e.shape.isEmpty then 0 else e.free.size

variable [Scalar R] [DecidableEq R]

/-- The scalar components of a modified terminal: its free indices are fixed, then
its axes indexed, and each result has to be a modified terminal with a descriptor. -/
def terminalScalars (e : Expr R) : Result R (Array (Expr R)) := do
  if e.isZero then return Array.replicate (shapeSize e.shape * e.free.size) (zero [])
  let ids := e.free.map (·.id)
  let fixed ← (components e.free.dims).mapM fun positions => (e.fix ids positions : Checked R _)
  -- in layout order: the axes outside, the free indices inside
  let scalars ← (components e.shape).flatMapM fun c =>
    fixed.mapM fun a => do
      let scalar ← a.index (c.map .fixed)
      match ← scalar.analyse with
      | some _ => return scalar
      | none => throw (Error.unexpectedNode e)
  return scalars.toArray

/-- An operator on each scalar component. -/
def eachScalar (op : UnaryOp) (as : Array (Expr R)) : Result R (Array (Expr R)) :=
  as.mapM fun a => (op.apply a : Checked R _)

/-- An operator on scalar components in the same place. A single component is
combined with all of the other operand. -/
def zipScalars (op : BinaryOp) (as bs : Array (Expr R)) : Result R (Array (Expr R)) := do
  -- a single component goes with all, and otherwise there are as many on both sides
  let n := max as.size bs.size
  unless as.size = 1 ∨ as.size = n do throw (Error.breach (.componentCounts as.size n))
  unless bs.size = 1 ∨ bs.size = n do throw (Error.breach (.componentCounts bs.size n))
  return (← (List.range n).mapM fun k => do
    let x ← scalarAt as (if as.size = 1 then 0 else k)
    let y ← scalarAt bs (if bs.size = 1 then 0 else k)
    (op.apply x y : Checked R _)).toArray

/-- The scalar components of a product. Each entry is found in the lists of both factors by its
component and the strides of its indices there, so an index of both factors is matched. -/
def productScalars (a b : Expr R) (as bs : Array (Expr R)) : Result R (Array (Expr R)) := do
  let e := binary .product a b
  let (stridesA, _) := a.free.strides e.free
  let (stridesB, _) := b.free.strides e.free
  let places :=
    (List.range (shapeSize e.shape)).flatMap fun k => (components e.free.dims).map (k, ·)
  return (← places.mapM fun (k, positions) => do
    let x ← scalarAt as (k * a.block + offset positions stridesA)
    let y ← scalarAt bs (k * b.block + offset positions stridesB)
    (x.mul y : Checked R _)).toArray

/-- The scalar components of a sum over an index. The index splits the layout of the summand: its
axes and the smaller indices are in front, and the larger indices behind. -/
def sumScalars (i : IndexId) (a : Expr R) (as : Array (Expr R)) : Result R (Array (Expr R)) := do
  let some dim := a.free.dim? i | throw (Error.breach (.indexSumNotFree i a))
  let front := shapeSize a.shape * (a.free.before i).size
  let behind := (a.free.behind i).size
  let places := (List.range front).flatMap fun p => (List.range behind).map (p, ·)
  return (← places.mapM fun (p, k) => do
    let base := p * behind * dim + k
    let first ← scalarAt as base
    (List.range (dim - 1)).foldlM
      (fun sum j => do (sum.add (← scalarAt as (base + (j + 1) * behind)) : Checked R _))
      first).toArray

/-- The scalar components of an indexing, which are some of the operand's. -/
def indexedScalars (is : List Index) (a : Expr R) (as : Array (Expr R)) :
    Result R (Array (Expr R)) := do
  let out := (unary (.indexed is) a).free
  let axes ← is.mapM fun j => (AxisSource.ofIndex out j : Checked R _)
  let indices ← a.free.mapM fun f => (out.place f.id : Checked R _)
  return (← (components out.dims).mapM fun positions =>
    let component := axes.map (·.position positions)
    let own := indices.map fun k => positions.getD k 0
    scalarAt as (flatten component a.shape * a.free.size + flatten own a.free.dims)).toArray

/-- The scalar components of an expression. -/
def scalarize (e : Expr R) : Result R (Array (Expr R)) :=
  if e.isModifiedTerminal then terminalScalars e
  else
    match e with
    | binary .product a b => do productScalars a b (← scalarize a) (← scalarize b)
    | binary op a b => do zipScalars op (← scalarize a) (← scalarize b)
    | unary (.math f) a => do eachScalar (.math f) (← scalarize a)
    | unary .abs a => do eachScalar .abs (← scalarize a)
    | unary (.indexSum i) a => do sumScalars i a (← scalarize a)
    | unary (.indexed is) a => do indexedScalars is a (← scalarize a)
    | e => .error (.unexpectedNode e)

/-! ## Scalarization over shared subexpressions -/

/-- `scalarize` with a table of the subexpressions scalarized before. -/
def scalarizeShared (e : Expr R) : Memo.Run (scalarize (R := R)) (scalarize e) :=
  Memo.lookUp e <|
    if hm : e.isModifiedTerminal then
      pure ⟨terminalScalars e, by rw [scalarize.eq_def, if_pos hm]⟩
    else
      match e with
      | binary .product a b => do
        let ⟨as, ha⟩ ← scalarizeShared a
        let ⟨bs, hb⟩ ← scalarizeShared b
        pure ⟨do productScalars a b (← as) (← bs), by rw [scalarize, if_neg hm, ha, hb]⟩
      | binary .sum a b => do
        let ⟨as, ha⟩ ← scalarizeShared a
        let ⟨bs, hb⟩ ← scalarizeShared b
        pure ⟨do zipScalars .sum (← as) (← bs), by rw [scalarize, if_neg hm, ha, hb]; simp⟩
      | binary .division a b => do
        let ⟨as, ha⟩ ← scalarizeShared a
        let ⟨bs, hb⟩ ← scalarizeShared b
        pure ⟨do zipScalars .division (← as) (← bs), by rw [scalarize, if_neg hm, ha, hb]; simp⟩
      | binary .power a b => do
        let ⟨as, ha⟩ ← scalarizeShared a
        let ⟨bs, hb⟩ ← scalarizeShared b
        pure ⟨do zipScalars .power (← as) (← bs), by rw [scalarize, if_neg hm, ha, hb]; simp⟩
      | unary (.math f) a => do
        let ⟨as, ha⟩ ← scalarizeShared a
        pure ⟨do eachScalar (.math f) (← as), by rw [scalarize, if_neg hm, ha]⟩
      | unary .abs a => do
        let ⟨as, ha⟩ ← scalarizeShared a
        pure ⟨do eachScalar .abs (← as), by rw [scalarize, if_neg hm, ha]⟩
      | unary (.indexSum i) a => do
        let ⟨as, ha⟩ ← scalarizeShared a
        pure ⟨do sumScalars i a (← as), by rw [scalarize, if_neg hm, ha]⟩
      | unary (.indexed is) a => do
        let ⟨as, ha⟩ ← scalarizeShared a
        pure ⟨do indexedScalars is a (← as), by rw [scalarize, if_neg hm, ha]⟩
      | e => pure ⟨scalarize e, rfl⟩

/-- The scalar components of each expression, with a table of those found before. -/
def scalarizeEach (es : List (Expr R)) :
    Memo.Run (scalarize (R := R)) (es.map scalarize) :=
  match es with
  | [] => pure ⟨[], rfl⟩
  | e :: es => do
    let ⟨scalars, h⟩ ← scalarizeShared e
    let ⟨rest, hs⟩ ← scalarizeEach es
    pure ⟨scalars :: rest, by rw [h, hs, List.map_cons]⟩

/-- The scalar components of each of several expressions. -/
def scalarizeAll (es : List (Expr R)) : List (Result R (Array (Expr R))) :=
  (scalarizeEach es).value

/-- Scalarizing with a shared table of results gives what each expression gives by itself. -/
theorem scalarizeAll_eq (es : List (Expr R)) : scalarizeAll es = es.map scalarize :=
  Memo.Run.value_eq _

end Expr

namespace ScalarGraph

variable {R : Type} [Scalar R] [DecidableEq R]

/-- Insert scalar components as targets, in order. -/
def insertTargets (scalars : Result R (Array (Expr R))) : Building R Unit := do
  (← ofExcept scalars).forM insertTarget

/-- The graph of several expressions, with each of their scalar components as a target. -/
def ofTargets (es : List (Expr R)) : Result R (ScalarGraph R) :=
  match ((Expr.scalarizeAll es).forM insertTargets).run.run {} with
  | (.ok _, g) => .ok g
  | (.error e, _) => .error e

end ScalarGraph

end WeakForm
