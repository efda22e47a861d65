import WeakForm.Scalar

/-!
# Double precision

The numbers the program computes with. Sums, products and quotients are rounded
to nearest; elementary functions are the machine's. The error function is
computed here, by a rational approximation on each of five intervals: near zero
of `(erf x - x) / x`, around one of `erf x - 0.845…`, and further out of the
logarithm of `x · exp (x ^ 2) · (1 - erf x)`. Beyond six it is one.
-/

namespace WeakForm.Machine

/-- The polynomial with the given coefficients, constant term first. -/
def polynomial (coefficients : List Float) (x : Float) : Float :=
  coefficients.foldr (fun c value => c + x * value) 0.0

/-- The error function below `0.84375`, relative to its argument. -/
def erfNearZero (x : Float) : Float :=
  let z := x * x
  let p := polynomial [1.28379167095512558561e-01, -3.25042107247001499370e-01,
    -2.84817495755985104766e-02, -5.77027029648944159157e-03, -2.37630166566501626084e-05] z
  let q := polynomial [1.0, 3.97917223959155352819e-01, 6.50222499887672944485e-02,
    5.08130628187576562776e-03, 1.32494738004321644526e-04, -3.96022827877536812320e-06] z
  p / q

/-- The constant that the approximation around one is relative to. -/
def erfCentre : Float := 8.45062911510467529297e-01

/-- The error function from `0.84375` to `1.25`. -/
def erfNearOne (x : Float) : Float :=
  let s := x - 1.0
  let p := polynomial [-2.36211856075265944077e-03, 4.14856118683748331666e-01,
    -3.72207876035701323847e-01, 3.18346619901161753674e-01, -1.10894694282396677476e-01,
    3.54783043256182359371e-02, -2.16637559486879084300e-03] s
  let q := polynomial [1.0, 1.06420880400844228286e-01, 5.40397917702171048937e-01,
    7.18286544141962662868e-02, 1.26171219808761642112e-01, 1.36370839120290507362e-02,
    1.19844998467991074170e-02] s
  erfCentre + p / q

/-- The complement of the error function from `1.25` to `28`. -/
def erfTail (x : Float) : Float :=
  let s := 1.0 / (x * x)
  let (p, q) :=
    if x < 1.0 / 0.35 then
      (polynomial [-9.86494403484714822705e-03, -6.93858572707181764372e-01,
        -1.05586262253232909814e+01, -6.23753324503260060396e+01, -1.62396669462573470355e+02,
        -1.84605092906711035994e+02, -8.12874355063065934246e+01, -9.81432934416914548592e+00] s,
       polynomial [1.0, 1.96512716674392571292e+01, 1.37657754143519042600e+02,
        4.34565877475229228821e+02, 6.45387271733267880336e+02, 4.29008140027567833386e+02,
        1.08635005541779435134e+02, 6.57024977031928170135e+00, -6.04244152148580987438e-02] s)
    else
      (polynomial [-9.86494292470009928597e-03, -7.99283237680523006574e-01,
        -1.77579549177547519889e+01, -1.60636384855821916062e+02, -6.37566443368389627722e+02,
        -1.02509513161107724954e+03, -4.83519191608651397019e+02] s,
       polynomial [1.0, 3.03380607434824582924e+01, 3.25792512996573918826e+02,
        1.53672958608443695994e+03, 3.19985821950859553908e+03, 2.55305040643316442583e+03,
        4.74528541206955367215e+02, -2.24409524465858183362e+01] s)
  -- The leading half of the bits of `x`, whose square is exact.
  let z := Float.ofBits (x.toBits &&& 0xFFFFFFFF00000000)
  Float.exp (-z * z - 0.5625) * Float.exp ((z - x) * (z + x) + p / q) / x

/-- The error function. -/
def erf (x : Float) : Float :=
  let a := x.abs
  let sign : Float := if x < 0.0 then -1.0 else 1.0
  if x.isNaN then x
  else if a < 0.84375 then x + x * erfNearZero x
  else if a < 1.25 then sign * erfNearOne a
  else if a < 6.0 then sign * (1.0 - erfTail a)
  else sign

/-- The value of an elementary function. -/
def apply : MathFunction → Float → Float
  | .sqrt => Float.sqrt
  | .exp => Float.exp
  | .ln => Float.log
  | .sin => Float.sin
  | .cos => Float.cos
  | .tan => Float.tan
  | .asin => Float.asin
  | .acos => Float.acos
  | .atan => Float.atan
  | .sinh => Float.sinh
  | .cosh => Float.cosh
  | .tanh => Float.tanh
  | .erf => erf

end WeakForm.Machine

namespace WeakForm

instance : Scalar Float where
  ofInt := Float.ofInt
  add := (· + ·)
  sub := (· - ·)
  mul := (· * ·)
  div := (· / ·)
  pow := Float.pow
  abs := Float.abs
  apply := Machine.apply
  le x y := x ≤ y
  same := (· == ·)

end WeakForm
