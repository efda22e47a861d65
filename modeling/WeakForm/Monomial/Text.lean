import WeakForm.Error.Message
import WeakForm.Monomial.Basic

/-!
# Written monomials

A monomial is written as its coefficient and its factors with asterisks between
them, a sum of them with plus signs, and zero as `0`. A form has one line for each
integral, which the measure opens.
-/

namespace WeakForm

/-- Coefficients are written positionally, and whole numbers without a point. -/
def Monomial.style : Decimal.Style where
  positional _ := true
  wholePoint := false

def Monomial.text (m : Monomial Float) : String :=
  " * ".intercalate (Monomial.style.render m.coefficient :: m.factors.map (·.text))

def MonomialSum.text (s : MonomialSum Float) : String :=
  match s with
  | [] => "0"
  | s => " + ".intercalate (s.map (·.text))

def MonomialForm.text (f : MonomialForm Float) : String :=
  match f with
  | [] => "<Empty form>"
  | f => "\n".intercalate (f.map fun (s, measure) => measure.text ++ ": " ++ MonomialSum.text s)

end WeakForm
