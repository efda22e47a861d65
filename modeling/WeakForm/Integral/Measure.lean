import WeakForm.Expr.Basic

/-!
# Measures and forms

An integral is an integrand over a measure: a kind of mesh entity and, if it is
not all of them, the number of a subdomain. A form is a sum of integrals.
-/

namespace WeakForm

/-- Kind of mesh entity an integral runs over. -/
inductive IntegralType where
  | cell | exteriorFacet | interiorFacet | vertex | custom
  /-- Evaluation of an expression at points, without integration. -/
  | expression
  deriving DecidableEq, Repr

/-- Kind of entity that tables have rows for. -/
inductive EntityType where
  | cell | facet | vertex
  deriving DecidableEq, Repr

namespace IntegralType

def name : IntegralType → String
  | cell => "cell"
  | exteriorFacet => "exterior_facet"
  | interiorFacet => "interior_facet"
  | vertex => "vertex"
  | custom => "custom"
  | expression => "expression"

def all : List IntegralType :=
  [cell, exteriorFacet, interiorFacet, vertex, custom, expression]

def ofName? (name : String) : Option IntegralType :=
  all.find? fun t => t.name == name

/-- The symbol of the measure. -/
def symbol : IntegralType → String
  | cell => "dx"
  | exteriorFacet => "ds"
  | interiorFacet => "dS"
  | vertex => "dP"
  | custom => "dc"
  | expression => "dE"

/-- The entities that tables have rows for. -/
def entityType : IntegralType → EntityType
  | cell | custom | expression => .cell
  | exteriorFacet | interiorFacet => .facet
  | vertex => .vertex

/-- The number of entities on one cell. -/
def entities (t : IntegralType) (d : Domain) : Nat :=
  match t.entityType with
  | .cell => 1
  | .facet => d.cell.facets
  | .vertex => d.cell.vertices

/-- Whether generated code scales the integrand by the quadrature weight. -/
def expectsWeight (t : IntegralType) (d : Domain) : Bool :=
  match t.entityType with
  | .cell => true
  | .facet => 1 < d.tdim
  | .vertex => false

end IntegralType

/-- Where an integrand is integrated. -/
structure Measure where
  type : IntegralType
  subdomain : Option Nat
  deriving DecidableEq, Repr

namespace Measure

/-- The symbol of the measure, with the subdomain in parentheses. -/
def text (m : Measure) : String :=
  match m.subdomain with
  | none => m.type.symbol
  | some s => m.type.symbol ++ "(" ++ toString s ++ ")"

end Measure

/-- One integrand over one measure. -/
structure Integral (R : Type) where
  integrand : Expr R
  measure : Measure

/-- A sum of integrals. -/
structure Form (R : Type) where
  integrals : List (Integral R)

namespace Form

def isEmpty {R : Type} (f : Form R) : Bool :=
  f.integrals.isEmpty

end Form

end WeakForm
