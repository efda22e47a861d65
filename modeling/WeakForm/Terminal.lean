import WeakForm.Index.Layout
import WeakForm.Literal
import WeakForm.Mesh

/-!
# Terminals

The quantities an integrand is built from: the unknown functions of the form
(*arguments*), given functions (*coefficients*), geometric quantities of the
mesh, literals and zeros.
-/

namespace WeakForm

/-- A finite element: its identity, its polynomial degree and the shape of the
values of its basis functions. -/
structure Element where
  id : ElementId
  degree : Nat
  shape : List Nat
  deriving DecidableEq, Repr

namespace Element

/-- Elements of degree zero are constant on each cell. -/
def isCellwiseConstant (e : Element) : Bool :=
  e.degree == 0

/-- The number of components of a basis function value. -/
def size (e : Element) : Nat :=
  shapeSize e.shape

end Element

/-- An unknown function. Its number is the axis of the assembled tensor. -/
structure Argument where
  number : Nat
  part : Option Nat
  element : Element
  domain : Domain
  deriving DecidableEq, Repr

/-- A given function. -/
structure Coefficient where
  count : Nat
  element : Element
  domain : Domain
  deriving DecidableEq, Repr

/-- Kind of geometric quantity. -/
inductive GeometryKind where
  | spatialCoordinate
  | cellCoordinate
  | facetCoordinate
  | jacobian
  | facetNormal
  | cellVolume
  | quadratureWeight
  deriving DecidableEq, Repr

namespace GeometryKind

/-- The symbol a quantity is written with. -/
def symbol : GeometryKind → String
  | spatialCoordinate => "x"
  | cellCoordinate => "X"
  | facetCoordinate => "Xf"
  | jacobian => "J"
  | facetNormal => "n"
  | cellVolume => "volume"
  | quadratureWeight => "weight"

def all : List GeometryKind :=
  [spatialCoordinate, cellCoordinate, facetCoordinate, jacobian, facetNormal, cellVolume,
    quadratureWeight]

def ofSymbol? (symbol : String) : Option GeometryKind :=
  all.find? fun k => k.symbol == symbol

end GeometryKind

/-- A geometric quantity of a domain. -/
structure Geometry where
  kind : GeometryKind
  domain : Domain
  deriving DecidableEq, Repr

namespace Geometry

/-- Value shape. -/
def shape (g : Geometry) : List Nat :=
  match g.kind with
  | .spatialCoordinate | .facetNormal => [g.domain.gdim]
  | .cellCoordinate => [g.domain.tdim]
  | .facetCoordinate => [g.domain.tdim - 1]
  | .jacobian => [g.domain.gdim, g.domain.tdim]
  | .cellVolume | .quadratureWeight => []

def isCellwiseConstant (g : Geometry) : Bool :=
  match g.kind with
  | .cellVolume => true
  | .jacobian | .facetNormal => g.domain.affine
  | .spatialCoordinate | .cellCoordinate | .facetCoordinate | .quadratureWeight => false

/-- Defined by the quadrature point itself and not by a basis expansion. -/
def isPointDependent (g : Geometry) : Bool :=
  match g.kind with
  | .cellCoordinate | .facetCoordinate | .quadratureWeight => true
  | .spatialCoordinate | .jacobian | .facetNormal | .cellVolume => false

/-- Read from the coordinate field of the mesh. -/
def isCoordinateField (g : Geometry) : Bool :=
  match g.kind with
  | .spatialCoordinate | .jacobian => true
  | .cellCoordinate | .facetCoordinate | .facetNormal | .cellVolume | .quadratureWeight => false

end Geometry

/-- A quantity without operands. -/
inductive Terminal (R : Type) where
  | argument (a : Argument)
  | coefficient (c : Coefficient)
  | geometry (g : Geometry)
  | literal (v : Literal R)
  /-- The zero of a shape and a set of free indices. -/
  | zero (shape : List Nat) (free : FreeIndices)
  deriving DecidableEq, Repr

namespace Terminal

variable {R : Type}

/-- The element whose basis a function is expanded in. -/
def element? : Terminal R → Option Element
  | argument a => some a.element
  | coefficient c => some c.element
  | geometry _ | literal _ | zero _ _ => none

def argument? : Terminal R → Option Argument
  | argument a => some a
  | coefficient _ | geometry _ | literal _ | zero _ _ => none

def shape : Terminal R → List Nat
  | argument a => a.element.shape
  | coefficient c => c.element.shape
  | geometry g => g.shape
  | literal _ => []
  | zero shape _ => shape

def free : Terminal R → FreeIndices
  | zero _ free => free
  | argument _ | coefficient _ | geometry _ | literal _ => []

def domain? : Terminal R → Option Domain
  | argument a => some a.domain
  | coefficient c => some c.domain
  | geometry g => some g.domain
  | literal _ | zero _ _ => none

def isCellwiseConstant : Terminal R → Bool
  | argument a => a.element.isCellwiseConstant
  | coefficient c => c.element.isCellwiseConstant
  | geometry g => g.isCellwiseConstant
  | literal _ | zero _ _ => true

/-- The elements whose basis values the terminal is read from. -/
def basisElement? : Terminal R → Option ElementId
  | argument a => some a.element.id
  | coefficient c => some c.element.id
  | geometry g => if g.isCoordinateField then some g.domain.coordinate else none
  | literal _ | zero _ _ => none

end Terminal

end WeakForm
