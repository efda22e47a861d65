import WeakForm.Error
import WeakForm.Text.Blank
import WeakForm.Tolerance

/-!
# Parameters

The tolerances within which table values count as equal, and the limits of
register allocation. Each has a default and a key by which a caller overrides it.
-/

namespace WeakForm

/-- Tunables of tables and registers. -/
structure Parameters (R : Type) extends Tolerance R where
  /-- Most values kept in registers. -/
  maxRegisters : Nat
  /-- Values with a score up to this are not kept. -/
  scoreThreshold : Nat
  /-- Factor in the score of an elementary function. -/
  expensiveMultiplier : Nat

namespace Parameters

/-- Counts are below `2 ^ 64`. -/
def countBound : Nat := Nat.pow 2 64

def default : Parameters Float where
  rtol := 1e-6
  atol := 1e-9
  maxRegisters := 64
  scoreThreshold := 3
  expensiveMultiplier := 20

/-- The tolerance that a text stands for: finite and not negative. -/
def tolerance (value : String) : Except ParameterFault Float :=
  match Decimal.readReal (Text.trim value.toList) with
  | .error fault => .error (.number fault)
  | .ok x => if x.isFinite && !(x < 0.0) then .ok x else .error .tolerance

/-- The count that a text stands for. -/
def count (value : String) : Except ParameterFault Nat :=
  match Decimal.readCount countBound (Text.trim value.toList) with
  | .error fault => .error (.number fault)
  | .ok n => .ok n

/-- The parameters with the one of the given key set. -/
def set (p : Parameters Float) (key value : String) : Except ParameterFault (Parameters Float) :=
  match key with
  | "table_rtol" => return { p with rtol := ← tolerance value }
  | "table_atol" => return { p with atol := ← tolerance value }
  | "max_registers" => return { p with maxRegisters := ← count value }
  | "score_threshold" => return { p with scoreThreshold := ← count value }
  | "expensive_multiplier" => return { p with expensiveMultiplier := ← count value }
  | _ => .error .unknownKey

/-- The parameters with keys set in order, up to the first fault. -/
def override (p : Parameters Float) (pairs : List (String × String)) :
    Result Float (Parameters Float) :=
  pairs.foldlM (fun p (key, value) =>
    match p.set key value with
    | .ok p => .ok p
    | .error fault => .error (.invalidParameter key value fault)) p

end Parameters

end WeakForm
