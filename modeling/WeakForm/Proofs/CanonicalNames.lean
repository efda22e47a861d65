import WeakForm.Proofs.ByteOrder
import WeakForm.Proofs.FirstMatch

/-!
# Names that stand for others

Named tables are merged in the order of their names, so the first name at a place comes before
all others there. It is the canonical name of each, and keeps the table that is stored under it.

* `Table.Heads` — the first name at a place;
* `Table.Traced`, `mergeNamed_traced` — canonical names are such names;
* `canonical_of_heads` — a first name stands for itself;
* `canonical_le`, `canonical_joins`, `canonical_passes` — a name and its canonical name;
* `Table.MergedNames.FirstNames`, `mergeNamed_firstNames` — the main result.
-/

namespace WeakForm.Table

/-- The names of a map are in ascending order. -/
theorem getElem?_keys_lt {V : Type} {entries : Std.TreeMap String V} {i j : Nat} {a b : String}
    (hi : entries.keys[i]? = some a) (hj : entries.keys[j]? = some b) (hij : i < j) : a < b := by
  obtain ⟨hi', rfl⟩ := List.getElem?_eq_some_iff.mp hi
  obtain ⟨hj', rfl⟩ := List.getElem?_eq_some_iff.mp hj
  have hsorted := List.pairwise_iff_getElem.mp (Std.TreeMap.ordered_keys (t := entries))
  exact compareOfLessAndEq_eq_lt.mp (hsorted i j hi' hj' hij)

/-- A name of a map is at one position. -/
theorem getElem?_keys_inj {V : Type} {entries : Std.TreeMap String V} {i j : Nat} {a : String}
    (hi : entries.keys[i]? = some a) (hj : entries.keys[j]? = some a) : i = j := by
  rcases Nat.lt_trichotomy i j with hlt | heq | hgt
  · exact absurd (getElem?_keys_lt hi hj hlt) Std.lt_irrefl
  · exact heq
  · exact absurd (getElem?_keys_lt hj hi hgt) Std.lt_irrefl

variable {R : Type} [Scalar R] {tol : Tolerance R} {tables : Std.TreeMap String (Table R)}
  {name first : String} {own : Table R} {i j place : Nat}

/-! ## First names -/

/-- The name at position `i` is the first one whose table is merged to a place. -/
structure Heads (tol : Tolerance R) (tables : Std.TreeMap String (Table R)) (first : String)
    (i place : Nat) : Prop where
  name : tables.keys[i]? = some first
  place : (merge tol tables.values).FirstAt place i

/-- A first name keeps its own table. -/
theorem Heads.kept (h : Heads tol tables first i place) (hown : tables[first]? = some own) :
    (merge tol tables.values).unique[place]? = some own := by
  obtain ⟨own', hvalue, hown'⟩ := getElem?_of_keys h.name
  obtain rfl := Option.some.inj (hown.symm.trans hown')
  obtain ⟨place', kept, hplace', hkept, -⟩ := (merge_places tol tables.values).kept i own hvalue
  obtain rfl := Option.some.inj (h.place.1.symm.trans hplace')
  -- what is kept at the place is the table of the first name there
  obtain ⟨j, hj, hfirst⟩ := (merge_joining tol tables.values).firstMatch.first place kept hkept
  obtain rfl := h.place.unique hj
  obtain rfl := Option.some.inj (hvalue.symm.trans hfirst)
  exact hkept

/-- Canonical names are first names, each at the place of the names that it stands for, and
what is kept is kept under a first name. -/
structure Traced (tol : Tolerance R) (tables : Std.TreeMap String (Table R))
    (m : MergedNames R) : Prop where
  canonical : ∀ name first : String, m.canonical[name]? = some first → ∃ i j place : Nat,
    tables.keys[i]? = some name ∧ (merge tol tables.values).places[i]? = some place ∧
      Heads tol tables first j place
  unique : ∀ (first : String) (kept : Table R), m.unique[first]? = some kept →
    ∃ i place, Heads tol tables first i place

/-- A name with the first name at its place. -/
theorem Traced.step {m : MergedNames R} {kept : Table R} (h : Traced tol tables m)
    (hname : tables.keys[i]? = some name)
    (hplace : (merge tol tables.values).places[i]? = some place)
    (hfirst : Heads tol tables first j place) :
    Traced tol tables {
      unique := m.unique.insertIfNew first kept
      canonical := m.canonical.insert name first } := by
  refine ⟨fun name' first' h' => ?_, fun first' kept' h' => ?_⟩
  · rcases entry_of_insert h' with ⟨rfl, rfl⟩ | h'
    · exact ⟨i, j, place, hname, hplace, hfirst⟩
    · exact h.canonical name' first' h'
  · rcases entry_of_insertIfNew h' with ⟨rfl, -⟩ | h'
    · exact ⟨j, place, hfirst⟩
    · exact h.unique first' kept' h'

/-- Merging by name keeps the first of the tables that look alike. -/
theorem mergeNamed_traced (tol : Tolerance R) (tables : Std.TreeMap String (Table R)) :
    Traced tol tables (mergeNamed tol tables) := by
  refine foldl_induct (P := fun _ m => Traced tol tables m) ?_ ?_
  · exact ⟨fun name first h => by simp at h, fun first kept h => by simp at h⟩
  · rintro done ⟨name, place⟩ m hprefix hm
    -- the name and its place stand in one position
    have hmem : (name, place) ∈ placed tol tables :=
      hprefix.subset (List.mem_append_right _ List.mem_cons_self)
    obtain ⟨i, hi⟩ := List.mem_iff_getElem?.mp hmem
    obtain ⟨hname, hplace⟩ := List.getElem?_zip_eq_some.mp hi
    dsimp only
    split
    · next first place' kept hfound _ =>
      have hsame := List.find?_some hfound
      obtain rfl : place' = place := of_decide_eq_true hsame
      obtain ⟨j, hhead, hfirst⟩ := firstAt_of_find? hfound
      exact hm.step hname hplace ⟨hhead, hfirst⟩
    · exact hm

/-! ## Canonical names -/

/-- Every name has a canonical name. -/
theorem exists_canonical (tol : Tolerance R) (hown : tables[name]? = some own) :
    ∃ first, (mergeNamed tol tables).canonical[name]? = some first := by
  obtain ⟨place, hplaced⟩ := exists_placed tol hown
  obtain ⟨first, -, -, hfirst, -⟩ :=
    (mergeNamed_merging tol tables).canonical (name, place) hplaced
  exact ⟨first, hfirst⟩

/-- **A first name stands for itself.** -/
theorem canonical_of_heads (h : Heads tol tables first i place) :
    (mergeNamed tol tables).canonical[first]? = some first := by
  obtain ⟨own, -, hown⟩ := getElem?_of_keys h.name
  obtain ⟨first', hcanonical⟩ := exists_canonical tol hown
  obtain ⟨i', j, place', hname, hplace, hheads⟩ :=
    (mergeNamed_traced tol tables).canonical first first' hcanonical
  -- the name is at one position, so both are the first name at one place
  obtain rfl := getElem?_keys_inj h.name hname
  obtain rfl := Option.some.inj (h.place.1.symm.trans hplace)
  obtain rfl := h.place.unique hheads.place
  obtain rfl := Option.some.inj (h.name.symm.trans hheads.name)
  exact hcanonical

/-- Names are compared as their places are, if they are the first ones there. -/
theorem Heads.place_lt {other : String} {k : Nat} (h : Heads tol tables first i place)
    (h' : Heads tol tables other j k) (hlt : other < first) : k < place := by
  have hmatch := (merge_joining tol tables.values).firstMatch
  rcases Nat.lt_trichotomy k place with hk | rfl | hk
  · exact hk
  · obtain rfl := h.place.unique h'.place
    obtain rfl := Option.some.inj (h.name.symm.trans h'.name)
    exact absurd hlt Std.lt_irrefl
  · have hij := hmatch.ascending i j place k h.place h'.place hk
    exact absurd hlt (Std.not_lt.mpr (Std.le_of_lt (getElem?_keys_lt h.name h'.name hij)))

/-- The position of a name, and that of its canonical name. -/
theorem exists_positions (hfirst : (mergeNamed tol tables).canonical[name]? = some first) :
    ∃ (i j place : Nat) (own : Table R), tables.keys[i]? = some name ∧
      tables.values[i]? = some own ∧ tables[name]? = some own ∧
        (merge tol tables.values).places[i]? = some place ∧ Heads tol tables first j place := by
  obtain ⟨i, j, place, hname, hplace, hheads⟩ :=
    (mergeNamed_traced tol tables).canonical name first hfirst
  obtain ⟨own, hvalue, hown⟩ := getElem?_of_keys hname
  exact ⟨i, j, place, own, hname, hvalue, hown, hplace, hheads⟩

/-- **A canonical name comes before the names that it stands for.** -/
theorem canonical_le (hfirst : (mergeNamed tol tables).canonical[name]? = some first) :
    first ≤ name := by
  obtain ⟨i, j, place, -, hname, -, -, hplace, hheads⟩ := exists_positions hfirst
  rcases Nat.lt_trichotomy i j with hlt | rfl | hgt
  · exact absurd hplace (hheads.place.2 i hlt)
  · obtain rfl := Option.some.inj (hname.symm.trans hheads.name)
    exact Std.le_refl _
  · exact Std.le_of_lt (getElem?_keys_lt hheads.name hname hgt)

/-- **A name joins one whose table is close to its own**, unless it is the first at its place. -/
theorem canonical_joins (hfirst : (mergeNamed tol tables).canonical[name]? = some first)
    (hown : tables[name]? = some own) :
    first = name ∨
      ∃ kept, (mergeNamed tol tables).unique[first]? = some kept ∧ isClose tol kept own := by
  obtain ⟨i, j, place, own', hname, hvalue, hown', hplace, hheads⟩ := exists_positions hfirst
  obtain rfl := Option.some.inj (hown.symm.trans hown')
  -- the first in its place heads it, and any later one has joined
  by_cases hat : (merge tol tables.values).FirstAt place i
  · obtain rfl := hat.unique hheads.place
    exact .inl (Option.some.inj (hheads.name.symm.trans hname))
  · have hmatch := (merge_joining tol tables.values).firstMatch
    obtain ⟨kept, hkept, hclose⟩ := hmatch.joins i place own hvalue hplace hat
    obtain ⟨kept', htable, hunique, -⟩ := mergeNamed_stands hown hfirst
    obtain rfl := Option.some.inj (hkept.symm.trans (hheads.kept htable))
    exact .inr ⟨kept, hunique, hclose⟩

/-- **A name passes no smaller one whose table is close to its own.** -/
theorem canonical_passes (hfirst : (mergeNamed tol tables).canonical[name]? = some first)
    (hown : tables[name]? = some own) {other : String} {kept : Table R}
    (hkept : (mergeNamed tol tables).unique[other]? = some kept) (hlt : other < first) :
    ¬isClose tol kept own := by
  obtain ⟨i, j, place, own', hname, hvalue, hown', hplace, hheads⟩ := exists_positions hfirst
  obtain rfl := Option.some.inj (hown.symm.trans hown')
  obtain ⟨j', k, hother⟩ := (mergeNamed_traced tol tables).unique other kept hkept
  have htable := (mergeNamed_merging tol tables).unique other kept hkept
  exact (merge_joining tol tables.values).passes i place own hvalue hplace k
    (hheads.place_lt hother hlt) kept (hother.kept htable)

/-- What merging makes of named tables. -/
structure MergedNames.FirstNames (tol : Tolerance R) (tables : Std.TreeMap String (Table R))
    (m : MergedNames R) : Prop where
  names : ∀ name : String, name ∈ m.canonical ↔ name ∈ tables
  range : ∀ first : String, first ∈ m.unique ↔ ∃ name : String, m.canonical[name]? = some first
  fixed : ∀ name first : String, m.canonical[name]? = some first → m.canonical[first]? = some first
  least : ∀ name first : String, m.canonical[name]? = some first → bytes first ≤ bytes name
  /-- What is kept is the table of the name itself. -/
  own : ∀ (first : String) (kept : Table R), m.unique[first]? = some kept →
    tables[first]? = some kept
  /-- Every other name has a table that is close to what is kept. -/
  joins : ∀ (name first : String) (own : Table R), m.canonical[name]? = some first →
    tables[name]? = some own →
      first = name ∨ ∃ kept, m.unique[first]? = some kept ∧ isClose tol kept own
  /-- No table is close to what is kept under a smaller name. -/
  passes : ∀ (name first : String) (own : Table R), m.canonical[name]? = some first →
    tables[name]? = some own → ∀ (other : String) (kept : Table R),
      m.unique[other]? = some kept → bytes other < bytes first → ¬isClose tol kept own

/-- **Canonical names are consistent.** Every name of a table has one, which is the first of the
names that it stands for, and keeps the table stored under it. -/
theorem mergeNamed_firstNames (tol : Tolerance R) (tables : Std.TreeMap String (Table R)) :
    (mergeNamed tol tables).FirstNames tol tables where
  names name := by
    simp only [Std.TreeMap.mem_iff_isSome_getElem?, Option.isSome_iff_exists]
    -- names are mapped and kept alike
    constructor
    · rintro ⟨first, hfirst⟩
      obtain ⟨-, -, -, own, -, -, hown, -⟩ := exists_positions hfirst
      exact ⟨own, hown⟩
    · rintro ⟨own, hown⟩
      exact exists_canonical tol hown
  range first := by
    rw [Std.TreeMap.mem_iff_isSome_getElem?, Option.isSome_iff_exists]
    constructor
    · rintro ⟨kept, hkept⟩
      obtain ⟨i, place, hheads⟩ := (mergeNamed_traced tol tables).unique first kept hkept
      exact ⟨first, canonical_of_heads hheads⟩
    · rintro ⟨name, hfirst⟩
      obtain ⟨-, -, -, own, -, -, hown, -⟩ := exists_positions hfirst
      obtain ⟨kept, -, hkept, -⟩ := mergeNamed_stands hown hfirst
      exact ⟨kept, hkept⟩
  fixed name first hfirst := by
    obtain ⟨-, j, place, -, -, -, -, -, hheads⟩ := exists_positions hfirst
    exact canonical_of_heads hheads
  least name first hfirst := bytes_le_iff.mpr (canonical_le hfirst)
  own := (mergeNamed_merging tol tables).unique
  joins name first own := canonical_joins
  passes name first own hfirst hown other kept hkept hlt :=
    canonical_passes hfirst hown hkept (bytes_lt_iff.mp hlt)

end WeakForm.Table
