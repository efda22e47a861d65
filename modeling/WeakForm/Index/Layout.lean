import WeakForm.Index.Basic

/-!
# Row-major layout

The components of a tensor are listed row-major: the last axis runs fastest. A
list without axes has one component, the empty one.

* `shapeSize` — the number of components;
* `advance` — the component after one: the last axis advances, with a carry;
* `components` — all component positions, in layout order;
* `flatten` — the place of a component in that order.
-/

namespace WeakForm

/-- The number of components of a shape. -/
def shapeSize (dims : List Nat) : Nat :=
  dims.foldr (· * ·) 1

/-- The component after one in layout order, and whether there is a carry out of the first
axis. An axis that has come to its end starts again, and carries into the axis before it. -/
def advance : List Nat → List Nat → List Nat × Bool
  | p :: c, d :: dims =>
    match advance c dims with
    | (c, false) => (p :: c, false)
    | (c, true) => if p + 1 < d then ((p + 1) :: c, false) else (0 :: c, true)
  | _, _ => ([], true)

/-- Add a number of components in layout order, from one on. -/
def pushComponents (dims : List Nat) : Nat → List Nat → Array (List Nat) → Array (List Nat)
  | 0, _, listed => listed
  | n + 1, c, listed => pushComponents dims n (advance c dims).1 (listed.push c)

/-- All component positions of a shape, in layout order. -/
def components (dims : List Nat) : List (List Nat) :=
  (pushComponents dims (shapeSize dims) (dims.map fun _ => 0) #[]).toList

/-- The place of a component in layout order. -/
def flatten (component dims : List Nat) : Nat :=
  (component.zip dims).foldl (fun place (p, d) => place * d + p) 0

end WeakForm
