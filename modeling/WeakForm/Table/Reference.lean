/-!
# Table types and references

What the values of a table depend on, and how a terminal reads a table.

* `TableType` — the classification of a table by the axes its values depend on;
* `TableReference` — the name, the columns and the classification of the table of
  a terminal.
-/

namespace WeakForm

/-- Classification of a table by the axes its values depend on. -/
inductive TableType where
  /-- All values are zero. -/
  | zeros
  /-- A single column of ones. -/
  | ones
  /-- The same values at every point and on every entity. -/
  | fixed
  /-- The same values at every point of an entity. -/
  | piecewise
  /-- The same values on every entity. -/
  | uniform
  /-- The identity between points and columns, on every entity. -/
  | quadrature
  /-- Values that depend on point and entity. -/
  | varying
  deriving DecidableEq, Repr

namespace TableType

def name : TableType → String
  | zeros => "zeros"
  | ones => "ones"
  | fixed => "fixed"
  | piecewise => "piecewise"
  | uniform => "uniform"
  | quadrature => "quadrature"
  | varying => "varying"

def all : List TableType :=
  [zeros, ones, fixed, piecewise, uniform, quadrature, varying]

def ofName? (name : String) : Option TableType :=
  all.find? fun t => t.name == name

/-- Independent of the point. -/
def isPiecewise : TableType → Bool
  | zeros | ones | fixed | piecewise => true
  | uniform | quadrature | varying => false

/-- Independent of the entity. -/
def isUniform : TableType → Bool
  | zeros | ones | fixed | uniform => true
  | piecewise | quadrature | varying => false

/-- Read anew at every point. -/
def isVarying : TableType → Bool
  | uniform | quadrature | varying => true
  | zeros | ones | fixed | piecewise => false

end TableType

/-- How a terminal reads its table. -/
structure TableReference where
  /-- Name of the table that is kept. -/
  name : String
  /-- Name of the terminal's own table, before equal tables were merged. -/
  source : String
  /-- Number of each dof that a column of the table belongs to. -/
  dofmap : List Nat
  type : TableType
  /-- First column of the unstripped table that is kept. -/
  start : Nat
  /-- One past the last column that is kept. -/
  stop : Nat
  isUniform : Bool
  isPiecewise : Bool
  /-- The table depends on the permutation of the facet. -/
  isPermuted : Bool
  deriving DecidableEq, Repr

end WeakForm
