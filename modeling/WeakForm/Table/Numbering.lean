import WeakForm.Expr.Replacement

/-!
# Numbering of elements

The elements that expressions are read from are numbered in the order in which
they occur first, from the root down and in the order of operands. A geometric
quantity of the coordinate field counts as an occurrence of its element.

Numbers are given on the way of a replacement that exchanges no terminal, so a
subexpression that an expression shares is walked once.

* `ElementNumbering.number` — the next ordinal, for an element that has none;
* `ElementNumbering.ofExprs` — the ordinals of the elements of several expressions.
-/

namespace WeakForm

/-- The ordinals of elements. -/
structure ElementNumbering where
  ordinals : Std.HashMap ElementId Nat := ∅
  /-- Ordinals are below the number of elements. -/
  lt_size : ∀ {x : ElementId} {k : Nat}, ordinals[x]? = some k → k < ordinals.size := by simp
  /-- No two elements have one ordinal. -/
  injective : ∀ {x y : ElementId} {k : Nat},
    ordinals[x]? = some k → ordinals[y]? = some k → x = y := by simp

namespace ElementNumbering

/-- Number an element, unless it is numbered. -/
def number (n : ElementNumbering) (element : ElementId) : ElementNumbering where
  ordinals := n.ordinals.insertIfNew element n.ordinals.size
  lt_size {x k} h := by
    rw [Std.HashMap.getElem?_insertIfNew] at h
    rw [Std.HashMap.size_insertIfNew]
    have hold := n.lt_size (x := x) (k := k)
    grind
  injective {x y k} hx hy := by
    rw [Std.HashMap.getElem?_insertIfNew] at hx hy
    -- the next ordinal is above those of all elements before
    have hx' := n.lt_size (x := x) (k := k)
    have hy' := n.lt_size (x := y) (k := k)
    have hold := n.injective (x := x) (y := y) (k := k)
    grind

/-- The ordinal of an element. -/
def ordinal? (n : ElementNumbering) (element : ElementId) : Option Nat :=
  n.ordinals[element]?

/-- The number of elements. -/
def size (n : ElementNumbering) : Nat :=
  n.ordinals.size

def isEmpty (n : ElementNumbering) : Bool :=
  n.ordinals.isEmpty

/-- Numbering an element adds the next ordinal for it, unless it has one. -/
theorem ordinal?_number (n : ElementNumbering) (x y : ElementId) :
    (n.number x).ordinal? y =
      if x = y ∧ n.ordinal? x = none then some n.size else n.ordinal? y := by
  simp [ordinal?, number, size, Std.HashMap.getElem?_insertIfNew]

theorem size_number (n : ElementNumbering) (x : ElementId) :
    (n.number x).size = if n.ordinal? x = none then n.size + 1 else n.size := by
  simp [ordinal?, number, size, Std.HashMap.size_insertIfNew]

variable {R : Type}

/-- Number the element that a terminal is read from. The terminal is not exchanged. -/
def numberTerminal (t : Terminal R) : StateM ElementNumbering (Option (Expr R)) := do
  if let some element := t.basisElement? then
    modify (·.number element)
  return none

variable [Scalar R] [DecidableEq R]

/-- Number the elements of expressions, one expression after the other. -/
def numberExprs (es : List (Expr R)) : StateM ElementNumbering PUnit :=
  forM es fun e => discard (Expr.replaceTerminalsM numberTerminal e)

/-- The elements of expressions, in order of first occurrence. -/
def ofExprs (es : List (Expr R)) : ElementNumbering :=
  ((numberExprs es).run {}).2

end ElementNumbering

end WeakForm
