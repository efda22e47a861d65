import WeakForm.Decimal.Style
import WeakForm.Integral.Measure

/-!
# Written expressions

The notation of diagnostics: `v_n` is the argument of number `n`, `w_n` a
coefficient, `i_n` a free index. Sums, quotients and powers stand in parentheses
and products do not, so the text has one reading without rules of precedence.

* `Expr.text` — the text of an expression;
* `Literal.style` — real literals are positional from `0.0001` up to below `10 ^ 16`
  and show a point.
-/

namespace WeakForm

/-- Real literals are positional from the fourth place after the point to the
sixteenth before it, and a whole number ends in `.0`. -/
def Literal.style : Decimal.Style where
  positional e := -4 ≤ e && e < 16
  wholePoint := true

def Literal.text : Literal Float → String
  | .int n => toString n
  | .real x => Literal.style.render x

/-- Texts with commas between them. -/
def commaSeparated (texts : List String) : String :=
  ", ".intercalate texts

/-- The notation of a terminal. A zero with axes shows its shape. -/
def Terminal.text : Terminal Float → String
  | .argument a =>
    match a.part with
    | none => "v_" ++ toString a.number
    | some part => "v_" ++ toString a.number ++ "^" ++ toString part
  | .coefficient c => "w_" ++ toString c.count
  | .geometry g => g.kind.symbol
  | .literal v => v.text
  | .zero [] _ => "0"
  | .zero shape _ => "0<(" ++ commaSeparated (shape.map toString) ++ ")>"

namespace UnaryOp

/-- What stands before the operand. -/
def opening : UnaryOp → String
  | math f => f.name ++ "("
  | abs => "|"
  | indexSum i => "sum_\x7b" ++ Index.text (.free i) ++ "\x7d("
  | componentTensor is =>
    "\x7b A | A_\x7b" ++ commaSeparated (is.map fun i => Index.text (.free i)) ++ "\x7d = "
  | indexed _ | restricted _ | spatialDerivative _ => ""
  | grad => "grad("
  | referenceGrad => "reference_grad("
  | averaged .cell => "cell_avg("
  | averaged .facet => "facet_avg("
  | labelled number => "var" ++ toString number ++ "("

/-- What stands after the operand. -/
def closing : UnaryOp → String
  | math _ | indexSum _ | grad | referenceGrad | averaged _ | labelled _ => ")"
  | abs => "|"
  | indexed is => "[" ++ commaSeparated (is.map Index.text) ++ "]"
  | componentTensor _ => " \x7d"
  | restricted side => "('" ++ side.symbol ++ "')"
  | spatialDerivative is => ".dx(" ++ commaSeparated (is.map Index.text) ++ ")"

end UnaryOp

namespace BinaryOp

/-- What stands between the operands. -/
def sign : BinaryOp → String
  | sum => " + "
  | product => " * "
  | division => " / "
  | power => " ** "

def isParenthesized : BinaryOp → Bool
  | sum | division | power => true
  | product => false

end BinaryOp

namespace Expr

mutual

/-- A text followed by that of an expression. -/
def write (before : String) : Expr Float → String
  | leaf t => before ++ t.text
  | unary op a => write (before ++ op.opening) a ++ op.closing
  | binary op a b =>
    if op.isParenthesized then write (write (before ++ "(") a ++ op.sign) b ++ ")"
    else write (write before a ++ op.sign) b
  | listTensor items => writeItems (before ++ "[") items ++ "]"

/-- A text followed by those of expressions, with commas between them. -/
def writeItems (before : String) : List (Expr Float) → String
  | [] => before
  | item :: items => writeFurther (write before item) items

/-- A text followed by those of expressions, with a comma before each. -/
def writeFurther (before : String) : List (Expr Float) → String
  | [] => before
  | item :: items => writeFurther (write (before ++ ", ") item) items

end

/-- The text of an expression. -/
def text (e : Expr Float) : String :=
  e.write ""

end Expr

/-- An integrand in braces, and its measure. -/
def Integral.text (i : Integral Float) : String :=
  "\x7b " ++ i.integrand.text ++ " \x7d * " ++ i.measure.text

/-- Integrals joined by plus signs, each on a line of its own. -/
def Form.text (f : Form Float) : String :=
  "\n  +  ".intercalate (f.integrals.map (·.text))

end WeakForm
