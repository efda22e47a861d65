import Std.Data.TreeMap
import WeakForm.Table.Basic

/-!
# Deduplication of tables

Of tables with close values one is kept: each table joins the first one kept
before that it is close to. Named tables are taken in the order of their names,
and the name of a kept table stands for the names of all that joined it.

* `Table.Merged` — the tables kept, and the place of each table among them;
* `Table.merge` — deduplication of a list;
* `Table.mergeNamed` — deduplication of named tables.
-/

namespace WeakForm.Table

variable {R : Type} [Scalar R]

/-- Tables of which no later one is close to an earlier one, and for each given
table the place of the one that stands for it. -/
structure Merged (R : Type) where
  unique : List (Table R) := []
  places : List Nat := []

namespace Merged

/-- Add a table, unless one that is kept is close to it. -/
def add (tol : Tolerance R) (m : Merged R) (t : Table R) : Merged R :=
  match m.unique.findIdx? (Table.isClose tol · t) with
  | some k => { m with places := m.places ++ [k] }
  | none => { unique := m.unique ++ [t], places := m.places ++ [m.unique.length] }

end Merged

/-- Deduplication of a list, in order. -/
def merge (tol : Tolerance R) (tables : List (Table R)) : Merged R :=
  tables.foldl (Merged.add tol) {}

/-- Named tables of which no two are close, and the name that stands for each name. -/
structure MergedNames (R : Type) where
  unique : Std.TreeMap String (Table R) := ∅
  canonical : Std.TreeMap String String := ∅

/-- Deduplication of named tables, in the order of the names. -/
def mergeNamed (tol : Tolerance R) (tables : Std.TreeMap String (Table R)) : MergedNames R :=
  let merged := merge tol tables.values
  let placed := tables.keys.zip merged.places
  placed.foldl
    (fun m (name, place) =>
      -- the first of the names in one place stands for all of them
      match placed.find? (·.2 = place), merged.unique[place]? with
      | some (first, _), some t =>
        { unique := m.unique.insertIfNew first t, canonical := m.canonical.insert name first }
      | _, _ => m)
    {}

end WeakForm.Table
