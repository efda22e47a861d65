/-!
# Shortest decimals

A floating-point number stands for all reals that round to it. Of the decimals
among them, the shortest is the one with the fewest digits, and of several the
one nearest to the number itself; of two equally near, the greater.

* `Binary` — a positive number `mantissa · 2 ^ exponent`;
* `Binary.nearest?` — the decimal with a given last place, if it rounds to the
  number;
* `Binary.shortest` — the shortest decimal.

All comparisons are between natural numbers, and exact.
-/

namespace WeakForm.Decimal

/-- The number `digits · 10 ^ exponent`. -/
structure Scaled where
  digits : Nat
  exponent : Int
  deriving DecidableEq, Repr

namespace Scaled

/-- A decimal whose last digit is not zero, unless it has only one. -/
def stripZeros (fuel : Nat) (d : Scaled) : Scaled :=
  match fuel with
  | 0 => d
  | fuel + 1 =>
    if d.digits ≠ 0 ∧ d.digits % 10 = 0 then stripZeros fuel ⟨d.digits / 10, d.exponent + 1⟩ else d

end Scaled

/-- The positive number `mantissa · 2 ^ exponent`. -/
structure Binary where
  mantissa : Nat
  exponent : Int
  /-- The number below is half as far away as the number above. -/
  narrow : Bool
  deriving DecidableEq, Repr

namespace Binary

/-- The number with the given bits, which are those of a finite number without its sign. -/
def ofBits (bits : Nat) : Binary :=
  let biased : Nat := bits / Nat.pow 2 52
  let fraction := bits % Nat.pow 2 52
  if biased = 0 then ⟨fraction, -1074, false⟩
  else ⟨Nat.pow 2 52 + fraction, (biased : Int) - 1075, fraction = 0 ∧ 1 < biased⟩

/-- Numerator and denominator of a quarter of the number's last binary place,
counted in units of `10 ^ place`. -/
def quarter (x : Binary) (place : Int) : Nat × Nat :=
  (Nat.pow 2 (x.exponent - 2).toNat * Nat.pow 10 (-place).toNat,
    Nat.pow 2 (2 - x.exponent).toNat * Nat.pow 10 place.toNat)

/-- Whether `digits · 10 ^ place` rounds to the number. The ends of the interval
round to it if its mantissa is even. -/
def readsBack (x : Binary) (place : Int) (digits : Nat) : Bool :=
  let (num, den) := x.quarter place
  -- half of the way to the number below, and to the number above
  let low := (4 * x.mantissa - if x.narrow then 1 else 2) * num
  let high := (4 * x.mantissa + 2) * num
  if x.mantissa % 2 = 0 then low ≤ digits * den && digits * den ≤ high
  else low < digits * den && digits * den < high

/-- The multiple of `10 ^ place` that is nearest to the number, if one of its two
neighbours there rounds to it. -/
def nearest? (x : Binary) (place : Int) : Option Nat :=
  let (num, den) := x.quarter place
  let below := 4 * x.mantissa * num / den
  match x.readsBack place below, x.readsBack place (below + 1) with
  | true, true =>
    if (2 * below + 1) * den ≤ 2 * (4 * x.mantissa * num) then some (below + 1) else some below
  | true, false => some below
  | false, true => some (below + 1)
  | false, false => none

/-- The least `k` with the number below `10 ^ k`. -/
def magnitude (x : Binary) : Int :=
  let estimate := ((x.mantissa.log2 : Int) + x.exponent) * 30103 / 100000
  let isBelow (k : Int) : Bool :=
    let (num, den) := x.quarter k
    4 * x.mantissa * num < den
  if isBelow estimate then estimate
  else if isBelow (estimate + 1) then estimate + 1
  else estimate + 2

/-- The number itself, with all its digits. -/
def exact (x : Binary) : Scaled :=
  if 0 ≤ x.exponent then ⟨x.mantissa * Nat.pow 2 x.exponent.toNat, 0⟩
  else ⟨x.mantissa * Nat.pow 5 (-x.exponent).toNat, x.exponent⟩

/-- The shortest decimal that rounds to the number. Seventeen digits suffice. -/
def shortest (x : Binary) : Scaled :=
  let k := x.magnitude
  match (List.range 17).findSome? fun n =>
      let place : Int := k - (n + 1 : Nat)
      (x.nearest? place).map fun digits => Scaled.mk digits place with
  | some d => d.stripZeros 20
  | none => x.exact

end Binary

end WeakForm.Decimal
