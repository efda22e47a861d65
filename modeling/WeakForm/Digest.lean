import WeakForm.Operator
import WeakForm.Terminal

/-!
# Structural digests

A digest is a number computed from the structure of a value, equal for equal
values. Digests are compared before structures are, so they only have to tell
most values apart. A real literal contributes nothing but its kind: the digest
of an expression does not depend on the numbers in use.
-/

namespace WeakForm.Digest

/-- Combine two digests. -/
def mix (h k : UInt64) : UInt64 :=
  ((h * 31 + k) * (0x9E3779B97F4A7C15 : UInt64)) ^^^ (h >>> (32 : UInt64))

/-- Combine the digests of a list, in order. -/
def list {α : Type} (digest : α → UInt64) (xs : List α) : UInt64 :=
  xs.foldl (fun h x => mix h (digest x)) 11

def nat (n : Nat) : UInt64 :=
  UInt64.ofNat n

def int : Int → UInt64
  | .ofNat n => mix 1 (nat n)
  | .negSucc n => mix 2 (nat n)

def index : Index → UInt64
  | .fixed p => mix 1 (nat p)
  | .free i => mix 2 (nat i)

def freeIndex (f : FreeIndex) : UInt64 :=
  mix (nat f.id) (nat f.dim)

def optional {α : Type} (digest : α → UInt64) : Option α → UInt64
  | none => 3
  | some x => mix 5 (digest x)

def element (e : Element) : UInt64 :=
  mix (nat e.id) (mix (nat e.degree) (list nat e.shape))

def domain (d : Domain) : UInt64 :=
  mix (nat d.cell.tdim) (mix (nat d.gdim) (nat d.coordinate))

def side (s : Side) : UInt64 :=
  nat s.rank

def averaging (a : Averaging) : UInt64 :=
  nat a.rank

def literal {R : Type} : Literal R → UInt64
  | .int n => int n
  | .real _ => 7

def terminal {R : Type} : Terminal R → UInt64
  | .argument a =>
    mix 101 (mix (nat a.number) (mix (optional nat a.part)
      (mix (element a.element) (domain a.domain))))
  | .coefficient c => mix 102 (mix (nat c.count) (mix (element c.element) (domain c.domain)))
  | .geometry g => mix 103 (mix (list (nat ∘ Char.toNat) g.kind.symbol.toList) (domain g.domain))
  | .literal v => mix 104 (literal v)
  | .zero shape free => mix 105 (mix (list nat shape) (list freeIndex free))

def mathFunction (f : MathFunction) : UInt64 :=
  list (nat ∘ Char.toNat) f.name.toList

def unaryOp : UnaryOp → UInt64
  | .math f => mix 201 (mathFunction f)
  | .abs => 202
  | .indexSum i => mix 203 (nat i)
  | .indexed is => mix 204 (list index is)
  | .componentTensor is => mix 205 (list nat is)
  | .restricted s => mix 206 (side s)
  | .grad => 207
  | .referenceGrad => 208
  | .spatialDerivative is => mix 209 (list index is)
  | .averaged a => mix 210 (averaging a)
  | .labelled label => mix 211 (nat label)

def binaryOp : BinaryOp → UInt64
  | .sum => 301
  | .product => 302
  | .division => 303
  | .power => 304

end WeakForm.Digest
