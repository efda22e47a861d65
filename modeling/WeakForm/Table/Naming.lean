import WeakForm.Integral.Measure
import WeakForm.Table.Basis

/-!
# Table names

The name of a table tells what its values are: the ordinal of the element, the
component, the number of derivatives along each direction, the averaging, the
kind of entity and the number of points.
-/

namespace WeakForm

namespace EntityType

/-- The part of a table name that tells the kind of entity. Cells need none. -/
def suffix : EntityType → String
  | cell => ""
  | facet => "_F"
  | vertex => "_V"

end EntityType

namespace Frame

/-- The part of a table name before the derivative counts. -/
def letter : Frame → String
  | reference => "_D"
  | physical => "_G"

end Frame

namespace Averaging

/-- The part of a table name that tells the averaging. -/
def suffix : Averaging → String
  | cell => "_AC"
  | facet => "_AF"

end Averaging

/-- The name of a table. The derivative counts are written one after the other,
where there is a derivative at all. -/
def tableName (ordinal : Nat) (component : Option Nat) (frame : Frame) (derivatives : List Nat)
    (averaged : Option Averaging) (entity : EntityType) (points : Nat) : String :=
  "FE" ++ toString ordinal ++
    (match component with
      | none => ""
      | some c => "_C" ++ toString c) ++
    (if derivatives.all (· == 0) then ""
      else frame.letter ++ String.join (derivatives.map toString)) ++
    ((averaged.map Averaging.suffix).getD "") ++ entity.suffix ++ "_Q" ++ toString points

end WeakForm
