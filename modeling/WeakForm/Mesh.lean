/-!
# Cells and domains

A domain is a mesh of cells of one reference shape, mapped into space by the
field of a coordinate element.
-/

namespace WeakForm

/-- Reference cell shape. -/
inductive Cell where
  | interval | triangle | quadrilateral | tetrahedron | hexahedron
  deriving DecidableEq, Repr

namespace Cell

def name : Cell → String
  | interval => "interval"
  | triangle => "triangle"
  | quadrilateral => "quadrilateral"
  | tetrahedron => "tetrahedron"
  | hexahedron => "hexahedron"

def all : List Cell :=
  [interval, triangle, quadrilateral, tetrahedron, hexahedron]

def ofName? (name : String) : Option Cell :=
  all.find? fun c => c.name == name

/-- Dimension of the reference shape. -/
def tdim : Cell → Nat
  | interval => 1
  | triangle | quadrilateral => 2
  | tetrahedron | hexahedron => 3

def facets : Cell → Nat
  | interval => 2
  | triangle => 3
  | quadrilateral | tetrahedron => 4
  | hexahedron => 6

def vertices : Cell → Nat
  | interval => 2
  | triangle => 3
  | quadrilateral | tetrahedron => 4
  | hexahedron => 8

def isSimplex : Cell → Bool
  | interval | triangle | tetrahedron => true
  | quadrilateral | hexahedron => false

end Cell

/-- Identity of a finite element. -/
abbrev ElementId := Nat

/-- The mesh domain a quantity lives on. -/
structure Domain where
  cell : Cell
  /-- Dimension of the space the mesh is embedded in. -/
  gdim : Nat
  /-- Element of the coordinate field. -/
  coordinate : ElementId
  /-- The coordinate field is affine on each cell. -/
  affine : Bool
  deriving DecidableEq, Repr

namespace Domain

/-- A mesh in its own dimension. Simplices are mapped affinely. -/
def ofCell (cell : Cell) (coordinate : ElementId) : Domain where
  cell := cell
  gdim := cell.tdim
  coordinate := coordinate
  affine := cell.isSimplex

def tdim (d : Domain) : Nat :=
  d.cell.tdim

end Domain

end WeakForm
