import WeakForm.Expr.Basic

/-!
# Modified terminals

A terminal under indexing, derivatives, restriction and averaging is one
quantity, read from a table or constant on the cell. Its *descriptor* says which:
`grad(u)[0]` and `u.dx(0)` have the same descriptor.

The analysis peels modifiers from the outside in. Indexing gives the component;
each gradient takes the last entry of the component for its direction; a spatial
derivative names its directions. Directions are listed in the order in which the
derivatives are applied.

* `Descriptor` — the quantity;
* `Descriptor.compareArguments?` — the order of the argument vector;
* `Expr.describe` — the analysis of a scalar expression.
-/

namespace WeakForm

/-- A terminal with its derivatives, component, restriction and averaging. -/
structure Descriptor (R : Type) where
  terminal : Terminal R
  /-- Physical derivative directions, in order of application. -/
  physical : List Nat
  /-- Reference derivative directions, in order of application. -/
  reference : List Nat
  /-- Component of the terminal's value. -/
  component : List Nat
  restriction : Option Side
  averaged : Option Averaging
  deriving DecidableEq

namespace Descriptor

variable {R : Type}

instance : Hashable (Descriptor R) where
  hash d :=
    Digest.mix (Digest.terminal d.terminal) <| Digest.mix (Digest.list Digest.nat d.physical) <|
      Digest.mix (Digest.list Digest.nat d.reference) <|
      Digest.mix (Digest.list Digest.nat d.component) <|
      Digest.mix (Digest.optional Digest.side d.restriction)
        (Digest.optional Digest.averaging d.averaged)

/-- The place of the component in the terminal's value. -/
def flatComponent (d : Descriptor R) : Nat :=
  flatten d.component d.terminal.shape

def argument? (d : Descriptor R) : Option Argument :=
  d.terminal.argument?

def isArgument (d : Descriptor R) : Bool :=
  d.argument?.isSome

def hasDerivatives (d : Descriptor R) : Bool :=
  !d.physical.isEmpty || !d.reference.isEmpty

/-- The order of the argument vector: number and part, component, derivatives,
restriction, averaging. Terminals that are no arguments have no place in it. -/
def compareArguments? (d d' : Descriptor R) : Option Ordering := do
  let a ← d.argument?
  let b ← d'.argument?
  return (compare a.number b.number).then <| (compare a.part b.part).then <|
    (compare d.component d'.component).then <| (compare d.physical d'.physical).then <|
    (compare d.reference d'.reference).then <| (compare d.restriction d'.restriction).then <|
    compare d.averaged d'.averaged

end Descriptor

/-- A scalar expression that is a modified terminal, with its descriptor. -/
structure ModifiedTerminal (R : Type) extends Descriptor R where
  expr : Expr R

/-- Why modifiers do not describe a quantity. -/
inductive ModifierFault where
  | restrictedTwice
  | averagedTwice
  /-- Physical and reference derivatives of one terminal. -/
  | mixedFrames
  deriving DecidableEq, Repr

/-- The modifiers peeled so far. -/
structure Modifiers where
  component? : Option (List Nat) := none
  physical : List Nat := []
  reference : List Nat := []
  restriction : Option Side := none
  averaged : Option Averaging := none

namespace Modifiers

/-- The modifiers with one more, further inside. `none` if the whole is no
modified terminal with fixed indices. -/
def peel (m : Modifiers) : UnaryOp → Except ModifierFault (Option Modifiers)
  | .indexed is =>
    -- an indexing beneath a derivative or another indexing names no component
    if m.component?.isSome || !m.physical.isEmpty || !m.reference.isEmpty then .ok none
    else .ok <| (is.mapM Index.position?).map fun c => { m with component? := some c }
  | .grad => .ok do
    let c ← m.component?
    let d ← c.getLast?
    return { m with component? := some c.dropLast, physical := d :: m.physical }
  | .referenceGrad => .ok do
    let c ← m.component?
    let d ← c.getLast?
    return { m with component? := some c.dropLast, reference := d :: m.reference }
  | .spatialDerivative is =>
    .ok <| (is.mapM Index.position?).map fun ds => { m with physical := ds ++ m.physical }
  | .restricted side =>
    if m.restriction.isSome then .error .restrictedTwice
    else .ok (some { m with restriction := some side })
  | .averaged region =>
    if m.averaged.isSome then .error .averagedTwice
    else .ok (some { m with averaged := some region })
  | .math _ | .abs | .indexSum _ | .componentTensor _ | .labelled _ => .ok none

end Modifiers

namespace Expr

variable {R : Type}

/-- The modifiers of an expression, outside in, after those in `m`, and the
terminal at its core. -/
def peel (m : Modifiers) : Expr R → Except ModifierFault (Option (Modifiers × Terminal R))
  | leaf t => .ok (some (m, t))
  | unary op a => do
    match ← m.peel op with
    | some m => peel m a
    | none => return none
  | binary _ _ _ | listTensor _ => .ok none

/-- The analysis of a scalar expression as a modified terminal. `none` if it is
an operator, has a free index, or indexes beneath a derivative. -/
def describe (e : Expr R) : Except ModifierFault (Option (ModifiedTerminal R)) := do
  unless e.isScalar do return none
  match ← e.peel {} with
  | none => return none
  | some (m, t) =>
    if !m.physical.isEmpty && !m.reference.isEmpty then throw .mixedFrames
    let component := m.component?.getD []
    -- each gradient has taken one entry, and the axes of the terminal are left
    unless component.length = t.shape.length do return none
    return some {
      terminal := t
      physical := m.physical
      reference := m.reference
      component := component
      restriction := m.restriction
      averaged := m.averaged
      expr := e }

end Expr

end WeakForm
