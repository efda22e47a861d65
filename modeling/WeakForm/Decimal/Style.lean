import WeakForm.Decimal.Shortest

/-!
# Written numbers

A finite number is written with its shortest digits, either positionally or with
one digit before the point and an exponent. Which of the two, and whether a whole
number shows its point, is the `Style` of the text it stands in.
-/

namespace WeakForm.Decimal

/-- How numbers are laid out. -/
structure Style where
  /-- Whether a number is written positionally, by the exponent of its leading digit. -/
  positional : Int → Bool
  /-- Whole numbers are written with a zero after the point. -/
  wholePoint : Bool

namespace Style

/-- Digits with the point after the first `whole` of them. -/
def place (style : Style) (digits : List Char) (whole : Int) : List Char :=
  if whole ≤ 0 then ['0', '.'] ++ List.replicate (-whole).toNat '0' ++ digits
  else if whole.toNat < digits.length then
    digits.take whole.toNat ++ '.' :: digits.drop whole.toNat
  else
    digits ++ List.replicate (whole.toNat - digits.length) '0' ++
      if style.wholePoint then ['.', '0'] else []

/-- Digits with the point after the first of them, and an exponent. -/
def scientific (digits : List Char) (exponent : Int) : List Char :=
  let mantissa := match digits with
    | first :: second :: rest => first :: '.' :: second :: rest
    | digits => digits
  mantissa ++ 'e' :: (toString exponent).toList

/-- The text of a decimal. -/
def layOut (style : Style) (d : Scaled) : List Char :=
  let digits := Nat.toDigits 10 d.digits
  let leading := d.exponent + digits.length - 1
  if style.positional leading then style.place digits (leading + 1)
  else scientific digits leading

/-- The text of a number. Zeros have a sign. -/
def render (style : Style) (x : Float) : String :=
  if x.isNaN then "NaN"
  else
    let bits := x.toBits.toNat
    let sign := if bits < Nat.pow 2 63 then "" else "-"
    let rest := bits % Nat.pow 2 63
    if x.isInf then sign ++ "inf"
    else if rest = 0 then sign ++ String.ofList (style.place ['0'] 1)
    else sign ++ String.ofList (style.layOut (Binary.ofBits rest).shortest)

end Style

end WeakForm.Decimal
