/-!
# Reading numbers

The texts that stand for real numbers and for counts.

* `readReal` — an optional sign, then digits with at most one point and an
  optional exponent, or `inf`, `infinity` or `nan` in any case;
* `readCount` — an optional plus sign and decimal digits, below a bound.
-/

namespace WeakForm.Decimal

/-- Why a text is no number. -/
inductive ReadFault where
  /-- No characters where a real number should be. -/
  | emptyReal
  | malformedReal
  /-- No characters where a count should be. -/
  | emptyCount
  | invalidDigit
  | tooLarge
  deriving DecidableEq, Repr

/-- The value of a decimal digit. -/
def digit? (c : Char) : Option Nat :=
  if '0' ≤ c ∧ c ≤ '9' then some (c.toNat - '0'.toNat) else none

/-- The number written by a list of digits. -/
def number (digits : List Char) : Nat :=
  digits.foldl (fun n c => 10 * n + (digit? c).getD 0) 0

/-- The digits at the front, and the rest. -/
def takeDigits (cs : List Char) : List Char × List Char :=
  cs.span fun c => (digit? c).isSome

/-- A sign at the front, and the rest. -/
def takeSign : List Char → Bool × List Char
  | '+' :: cs => (false, cs)
  | '-' :: cs => (true, cs)
  | cs => (false, cs)

/-- An exponent: nothing, or `e`, an optional sign and digits. -/
def exponent? : List Char → Option Int
  | [] => some 0
  | c :: cs =>
    if c = 'e' ∨ c = 'E' then
      let (negative, cs) := takeSign cs
      let (digits, rest) := takeDigits cs
      if digits.isEmpty ∨ !rest.isEmpty then none
      else some (if negative then -(number digits : Int) else number digits)
    else none

/-- The number nearest to `digits · 10 ^ exponent`. Past four hundred places on
either side of the point there is only infinity or zero. -/
def nearestFloat (digits : Nat) (exponent : Int) : Float :=
  if digits = 0 then 0.0
  else
    let leading := exponent + (Nat.toDigits 10 digits).length
    if 400 < leading then 1.0 / 0.0
    else if leading < -400 then 0.0
    else Float.ofScientific digits (exponent < 0) exponent.natAbs

/-- The value of an unsigned real number. -/
def unsigned? (cs : List Char) : Option Float :=
  let word := cs.map Char.toLower
  if word = "inf".toList ∨ word = "infinity".toList then some (1.0 / 0.0)
  else if word = "nan".toList then some (0.0 / 0.0)
  else
    let (whole, cs) := takeDigits cs
    let (fraction, cs) := match cs with
      | '.' :: cs => takeDigits cs
      | cs => ([], cs)
    if whole.isEmpty ∧ fraction.isEmpty then none
    -- the digits after the point count as whole ones, further down
    else (exponent? cs).map fun e => nearestFloat (number (whole ++ fraction)) (e - fraction.length)

/-- The real number that a text stands for. -/
def readReal (cs : List Char) : Except ReadFault Float :=
  if cs.isEmpty then .error .emptyReal
  else
    let (negative, cs) := takeSign cs
    match unsigned? cs with
    | some x => .ok (if negative then -x else x)
    | none => .error .malformedReal

/-- The count below `bound` that digits stand for, after those that stand for `n`.
The first digit that is none, or that leads past the bound, is the fault. -/
def readDigits (bound n : Nat) : List Char → Except ReadFault Nat
  | [] => .ok n
  | c :: cs =>
    match digit? c with
    | none => .error .invalidDigit
    | some d => if 10 * n + d < bound then readDigits bound (10 * n + d) cs else .error .tooLarge

/-- The count below `bound` that a text stands for. -/
def readCount (bound : Nat) : List Char → Except ReadFault Nat
  | [] => .error .emptyCount
  | ['+'] => .error .invalidDigit
  | '+' :: cs => readDigits bound 0 cs
  | cs => readDigits bound 0 cs

end WeakForm.Decimal
