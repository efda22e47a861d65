import WeakForm.Proofs.Classification
import WeakForm.Proofs.MapSum
import WeakForm.Proofs.Outcome
import WeakForm.Table.Deduplication

/-!
# Deduplication of equal tables

Of several tables that count as equal the first is kept, and stands for the others: it has
their shape, and is the table of the canonical name of each. Without tolerances, tables that
count as equal are equal, so the table under the canonical name of a name is the table of the
name.

* `Table.StandsFor` — what may be kept for a table;
* `isClose_iff` — only equal tables count as equal;
* `merge_places` — the tables of a list;
* `Table.Merging`, `mergeNamed_stands`, `mergeNamed_canonical` — named tables.
-/

namespace WeakForm

/-- The values of a map are those of its entries. -/
theorem values_eq_map {κ υ : Type} [Ord κ] (m : Std.TreeMap κ υ) :
    m.values = m.toList.map (·.2) := by
  have h : m.values = m.foldr (fun _ v values => v :: values) [] := rfl
  rw [h, Std.TreeMap.foldr_eq_foldr_toList, List.map_eq_foldr]

namespace Table

variable {R : Type} [Scalar R] {tol : Tolerance R}

/-! ## Equal tables -/

/-- With an exact tolerance, arrays are close when they are equal. -/
theorem allClose_iff (htol : tol.Exact) (a b : Array R) : allClose tol a b ↔ a = b := by
  have hclose : ∀ x y : R, tol.isClose x y = true ↔ x = y := htol.isClose
  simp only [allClose, Bool.and_eq_true, beq_iff_eq, List.all_eq_true, hclose, Prod.forall]
  rw [← Array.toList_inj, ← List.forall₂_eq_eq_eq, List.forall₂_iff_zip, Array.length_toList,
    Array.length_toList]

/-- **Only equal tables count as equal.** -/
theorem isClose_iff (htol : tol.Exact) (a b : Table R) : isClose tol a b ↔ a = b := by
  rw [isClose, Bool.and_eq_true, decide_eq_true_eq, allClose_iff htol]
  constructor
  · rintro ⟨hshape, hvalues⟩
    cases a
    cases b
    obtain rfl := hshape
    obtain rfl := hvalues
    rfl
  · rintro rfl
    exact ⟨rfl, rfl⟩

/-- A table that is kept for `t`: the table itself, or one that it counts as equal to. -/
def StandsFor (tol : Tolerance R) (kept t : Table R) : Prop :=
  kept = t ∨ isClose tol kept t

/-- What stands for a table is that table, when the tolerance is exact. -/
theorem StandsFor.eq {kept t : Table R} (htol : tol.Exact) (h : StandsFor tol kept t) :
    kept = t :=
  h.elim id (isClose_iff htol kept t).mp

/-- **What is kept for a table has its shape.** -/
theorem StandsFor.shape {kept t : Table R} (h : StandsFor tol kept t) : kept.shape = t.shape := by
  rcases h with rfl | hclose
  · rfl
  · rw [isClose, Bool.and_eq_true, decide_eq_true_eq] at hclose
    exact hclose.1

/-! ## Lists of tables -/

/-- An entry of the longer list is one of the old list, or the new last one. -/
theorem getElem?_concat_eq_some {α : Type} {xs : List α} {x y : α} {k : Nat} :
    (xs ++ [x])[k]? = some y ↔ xs[k]? = some y ∨ k = xs.length ∧ x = y := by
  rcases Nat.lt_trichotomy k xs.length with hlt | rfl | hgt
  · rw [List.getElem?_append_left hlt, or_iff_left fun h => absurd h.1 (Nat.ne_of_lt hlt)]
  · simp
  · -- both lists end before
    have hold : xs[k]? = none := List.getElem?_eq_none (Nat.le_of_lt hgt)
    have hnew : (xs ++ [x])[k]? = none := List.getElem?_eq_none (by
      rw [List.length_append, List.length_singleton]
      exact hgt)
    rw [hold, hnew, or_iff_right nofun]
    exact iff_of_false nofun fun h => Nat.ne_of_gt hgt h.1

/-- The place `k` is given to the table at `i`, and to none before. -/
def Merged.FirstAt (m : Merged R) (k i : Nat) : Prop :=
  m.places[i]? = some k ∧ ∀ j < i, m.places[j]? ≠ some k

omit [Scalar R] in
/-- A place is first given at one position only. -/
theorem Merged.FirstAt.unique {m : Merged R} {i j k : Nat} (h : m.FirstAt k i)
    (h' : m.FirstAt k j) : i = j := by
  rcases Nat.lt_trichotomy i j with hlt | heq | hgt
  · exact absurd h.1 (h'.2 i hlt)
  · exact heq
  · exact absurd h'.1 (h.2 j hgt)

/-- At the place of every table one is kept for it, which is the first table at the place. -/
structure Merged.Places (tol : Tolerance R) (m : Merged R) (tables : List (Table R)) : Prop where
  length : m.places.length = tables.length
  kept : ∀ (k : Nat) (t : Table R), tables[k]? = some t → ∃ place kept,
    m.places[k]? = some place ∧ m.unique[place]? = some kept ∧ StandsFor tol kept t
  first : ∀ (place : Nat) (kept : Table R), m.unique[place]? = some kept → ∃ k : Nat,
    tables[k]? = some kept ∧ m.places[k]? = some place ∧ ∀ j < k, m.places[j]? ≠ some place

/-- Places are given for tables that are kept. -/
theorem Merged.Places.place_lt {m : Merged R} {tables : List (Table R)}
    (h : m.Places tol tables) {k place : Nat} (hk : m.places[k]? = some place) :
    place < m.unique.length := by
  have hlt : k < tables.length := h.length ▸ (List.getElem?_eq_some_iff.mp hk).1
  obtain ⟨place', kept, hplace, hkept, -⟩ := h.kept k _ (List.getElem?_eq_getElem hlt)
  obtain rfl : place' = place := Option.some.inj (hplace.symm.trans hk)
  exact (List.getElem?_eq_some_iff.mp hkept).1

/-- The first table at a place stays the first. -/
theorem Merged.Places.first_concat {m : Merged R} {tables : List (Table R)}
    (h : m.Places tol tables) {place : Nat} {kept : Table R}
    (hkept : m.unique[place]? = some kept) (t : Table R) (next : Nat) :
    ∃ k : Nat, (tables ++ [t])[k]? = some kept ∧ (m.places ++ [next])[k]? = some place ∧
      ∀ j < k, (m.places ++ [next])[j]? ≠ some place := by
  obtain ⟨k, hk, hplace, hbefore⟩ := h.first place kept hkept
  have hlt := (List.getElem?_eq_some_iff.mp hplace).1
  refine ⟨k, ?_, ?_, fun j hj => ?_⟩
  · exact getElem?_concat_eq_some.mpr (.inl hk)
  · exact getElem?_concat_eq_some.mpr (.inl hplace)
  · rw [List.getElem?_append_left (Nat.lt_trans hj hlt)]
    exact hbefore j hj

/-- One more table, for which the one at `place` stands. -/
theorem Merged.Places.join {m : Merged R} {tables : List (Table R)} (h : m.Places tol tables)
    {place : Nat} {kept t : Table R} (hkept : m.unique[place]? = some kept)
    (hstands : StandsFor tol kept t) :
    Merged.Places tol { m with places := m.places ++ [place] } (tables ++ [t]) := by
  refine ⟨by simp [h.length], fun k t' hk => ?_, fun place' kept' hkept' => ?_⟩
  · simp only [getElem?_concat_eq_some] at hk ⊢
    rcases hk with hk | ⟨rfl, rfl⟩
    · obtain ⟨place', kept', hplace', hspec⟩ := h.kept k t' hk
      exact ⟨place', kept', .inl hplace', hspec⟩
    · exact ⟨place, kept, .inr ⟨h.length.symm, rfl⟩, hkept, hstands⟩
  · exact h.first_concat hkept' t place

/-- One more table, which is kept. -/
theorem Merged.Places.keep {m : Merged R} {tables : List (Table R)} (h : m.Places tol tables)
    (t : Table R) : Merged.Places tol
      { unique := m.unique ++ [t], places := m.places ++ [m.unique.length] } (tables ++ [t]) := by
  refine ⟨by simp [h.length], fun k t' hk => ?_, fun place kept hkept => ?_⟩
  -- a table is read at an old place, or it is the new one
  · simp only [getElem?_concat_eq_some] at hk ⊢
    rcases hk with hk | ⟨rfl, rfl⟩
    · obtain ⟨place, kept, hplace, hkept, hstands⟩ := h.kept k t' hk
      exact ⟨place, kept, .inl hplace, .inl hkept, hstands⟩
    · exact ⟨m.unique.length, t, .inr ⟨h.length.symm, rfl⟩, .inr ⟨rfl, rfl⟩, .inl rfl⟩
  · rcases getElem?_concat_eq_some.mp hkept with hkept | ⟨rfl, rfl⟩
    · exact h.first_concat hkept t m.unique.length
    · -- the new place is given for no table before
      refine ⟨tables.length, by simp, ?_, fun j hj hplace => ?_⟩
      · exact getElem?_concat_eq_some.mpr (.inr ⟨h.length.symm, rfl⟩)
      · rw [List.getElem?_append_left (h.length ▸ hj)] at hplace
        exact Nat.lt_irrefl _ (h.place_lt hplace)

/-- One more table. -/
theorem Merged.Places.add {m : Merged R} {tables : List (Table R)} (h : m.Places tol tables)
    (t : Table R) : (Merged.add tol m t).Places tol (tables ++ [t]) := by
  unfold Merged.add
  split
  · -- a table that one before counts as equal to
    next place hplace =>
    obtain ⟨hlt, hclose, -⟩ := List.findIdx?_eq_some_iff_getElem.mp hplace
    exact h.join (List.getElem?_eq_getElem hlt) (.inr hclose)
  · exact h.keep t

/-- Merging one table after the other keeps the places. -/
theorem merge_places (tol : Tolerance R) (tables : List (Table R)) :
    (merge tol tables).Places tol tables := by
  refine foldl_induct (P := fun done (m : Merged R) => m.Places tol done) ?_
    fun _ t _ _ h => h.add t
  exact ⟨rfl, fun k t hk => by simp at hk, fun place kept hkept => by simp at hkept⟩

/-! ## Named tables -/

/-- The names that are done have a canonical name, under which a table is kept for their own. -/
structure Merging (tol : Tolerance R) (tables : Std.TreeMap String (Table R))
    (done : List (String × Nat)) (m : MergedNames R) : Prop where
  unique : ∀ (name : String) (t : Table R), m.unique[name]? = some t → tables[name]? = some t
  canonical : ∀ entry ∈ done, ∃ first kept own, m.canonical[entry.1]? = some first ∧
    tables[first]? = some kept ∧ tables[entry.1]? = some own ∧ m.unique[first]? = some kept ∧
      StandsFor tol kept own

/-- A name with the first name at its place. -/
theorem Merging.step {tables : Std.TreeMap String (Table R)} {done : List (String × Nat)}
    {m : MergedNames R} (h : Merging tol tables done m) {name first : String} {place : Nat}
    {kept own : Table R} (hname : tables[name]? = some own) (hfirst : tables[first]? = some kept)
    (hstands : StandsFor tol kept own) :
    Merging tol tables (done ++ [(name, place)]) {
      unique := m.unique.insertIfNew first kept
      canonical := m.canonical.insert name first } := by
  -- what is kept stays, and the table of `first` is kept
  have hstays : ∀ (other : String) (t' : Table R), m.unique[other]? = some t' →
      (m.unique.insertIfNew first kept)[other]? = some t' := by
    intro other t' hother
    rw [Std.TreeMap.getElem?_insertIfNew, if_neg ?_]
    · exact hother
    · rintro ⟨heq, hnew⟩
      obtain rfl := Std.LawfulEqCmp.compare_eq_iff_eq.mp heq
      exact hnew (Std.TreeMap.mem_iff_isSome_getElem?.mpr (by rw [hother]; rfl))
  have hkept : (m.unique.insertIfNew first kept)[first]? = some kept := by
    by_cases hmem : first ∈ m.unique
    · obtain ⟨t', ht'⟩ := Option.isSome_iff_exists.mp (Std.TreeMap.mem_iff_isSome_getElem?.mp hmem)
      obtain rfl : kept = t' := Option.some.inj (hfirst.symm.trans (h.unique first t' ht'))
      exact hstays first kept ht'
    · rw [Std.TreeMap.getElem?_insertIfNew,
        if_pos ⟨Std.ReflCmp.compare_self, hmem⟩]
  refine ⟨fun other t' hother => ?_, fun entry hentry => ?_⟩
  · rcases entry_of_insertIfNew hother with ⟨rfl, rfl⟩ | hother
    · exact hfirst
    · exact h.unique other t' hother
  -- the new name has the kept first name, and other names have what they had
  · simp only [Std.TreeMap.getElem?_insert]
    by_cases heq : entry.1 = name
    · rw [heq, if_pos Std.ReflCmp.compare_self]
      exact ⟨first, kept, own, rfl, hfirst, hname, hkept, hstands⟩
    · rw [if_neg fun hc => heq (Std.LawfulEqCmp.compare_eq_iff_eq.mp hc).symm]
      rcases List.mem_append.mp hentry with hentry | hentry
      · obtain ⟨first', kept', own', hcanonical, hfirst', hown, hunique, hstands'⟩ :=
          h.canonical entry hentry
        exact ⟨first', kept', own', hcanonical, hfirst', hown, hstays first' kept' hunique,
          hstands'⟩
      · rw [List.mem_singleton.mp hentry] at heq
        exact absurd rfl heq

/-- The names with their places in the list of merged tables. -/
def placed (tol : Tolerance R) (tables : Std.TreeMap String (Table R)) : List (String × Nat) :=
  tables.keys.zip (merge tol tables.values).places

omit [Scalar R] in
/-- The names and the tables are listed in the same order. -/
theorem getElem?_of_keys {tables : Std.TreeMap String (Table R)} {k : Nat} {name : String}
    (h : tables.keys[k]? = some name) :
    ∃ t, tables.values[k]? = some t ∧ tables[name]? = some t := by
  rw [← Std.TreeMap.map_fst_toList_eq_keys, List.getElem?_map] at h
  obtain ⟨⟨name', t⟩, hentry, rfl⟩ := Option.map_eq_some_iff.mp h
  refine ⟨t, ?_, Std.TreeMap.mem_toList_iff_getElem?_eq_some.mp (List.mem_of_getElem? hentry)⟩
  rw [values_eq_map, List.getElem?_map, hentry]
  rfl

/-- At its place, a table is kept for that of a name. -/
theorem placed_kept {tables : Std.TreeMap String (Table R)} {name : String} {place : Nat}
    (h : (name, place) ∈ placed tol tables) : ∃ kept own, tables[name]? = some own ∧
      (merge tol tables.values).unique[place]? = some kept ∧ StandsFor tol kept own := by
  obtain ⟨k, hk⟩ := List.mem_iff_getElem?.mp h
  obtain ⟨hname, hplace⟩ := List.getElem?_zip_eq_some.mp hk
  obtain ⟨own, hvalue, hown⟩ := getElem?_of_keys hname
  obtain ⟨place', kept, hplace', hkept, hstands⟩ :=
    (merge_places tol tables.values).kept k own hvalue
  obtain rfl : place' = place := Option.some.inj (hplace'.symm.trans hplace)
  exact ⟨kept, own, hown, hkept, hstands⟩

/-- The first name that is found at a place. -/
theorem firstAt_of_find? {tables : Std.TreeMap String (Table R)} {first : String} {place : Nat}
    (h : (placed tol tables).find? (·.2 = place) = some (first, place)) :
    ∃ i : Nat, tables.keys[i]? = some first ∧ (merge tol tables.values).FirstAt place i := by
  obtain ⟨-, i, hi, heq, hbefore⟩ := List.find?_eq_some_iff_getElem.mp h
  obtain ⟨hname, hplace⟩ := List.getElem?_zip_eq_some.mp (List.getElem?_eq_some_iff.mpr ⟨hi, heq⟩)
  refine ⟨i, hname, hplace, fun j hj hjplace => ?_⟩
  have hlt : j < (placed tol tables).length := Nat.lt_trans hj hi
  have hentry : (placed tol tables)[j].2 = place := by
    simpa [placed] using (List.getElem?_eq_some_iff.mp hjplace).2
  have hfalse := hbefore j hj
  simp [hentry] at hfalse

/-- What is kept at a place is the table of the first name there. -/
theorem placed_first {tables : Std.TreeMap String (Table R)} {first : String} {place : Nat}
    {kept : Table R} (h : (placed tol tables).find? (·.2 = place) = some (first, place))
    (hkept : (merge tol tables.values).unique[place]? = some kept) :
    tables[first]? = some kept := by
  obtain ⟨i, hname, hfirst⟩ := firstAt_of_find? h
  obtain ⟨own, hvalue, hown⟩ := getElem?_of_keys hname
  obtain ⟨k, hk, hkfirst⟩ := (merge_places tol tables.values).first place kept hkept
  obtain rfl := hfirst.unique hkfirst
  rw [hown, ← hvalue, hk]

/-- Every name has a place. -/
theorem exists_placed (tol : Tolerance R) {tables : Std.TreeMap String (Table R)} {name : String}
    {t : Table R} (h : tables[name]? = some t) : ∃ place, (name, place) ∈ placed tol tables := by
  obtain ⟨k, hk⟩ := List.mem_iff_getElem?.mp (Std.TreeMap.mem_toList_iff_getElem?_eq_some.mpr h)
  have hname : tables.keys[k]? = some name := by
    rw [← Std.TreeMap.map_fst_toList_eq_keys, List.getElem?_map, hk]
    rfl
  obtain ⟨own, hvalue, -⟩ := getElem?_of_keys hname
  obtain ⟨place, -, hplace, -⟩ := (merge_places tol tables.values).kept k own hvalue
  exact ⟨place, List.mem_of_getElem? (List.getElem?_zip_eq_some.mpr ⟨hname, hplace⟩)⟩

/-- Merging by name follows the run of places. -/
theorem mergeNamed_merging (tol : Tolerance R) (tables : Std.TreeMap String (Table R)) :
    Merging tol tables (placed tol tables) (mergeNamed tol tables) := by
  refine foldl_induct (P := Merging tol tables) ?_ ?_
  · exact ⟨fun name t h => by simp at h, fun entry hentry => absurd hentry List.not_mem_nil⟩
  · intro done entry m hprefix hm
    obtain ⟨name, place⟩ := entry
    have hmem : (name, place) ∈ placed tol tables :=
      hprefix.subset (List.mem_append_right _ List.mem_cons_self)
    obtain ⟨kept, own, hname, hkept, hstands⟩ := placed_kept hmem
    -- the first name at the place is found, since there is one
    cases hfound : (placed tol tables).find? (·.2 = place) with
    | none =>
      exact absurd (decide_eq_true rfl) (List.find?_eq_none.mp hfound (name, place) hmem)
    | some found =>
      obtain ⟨first, place'⟩ := found
      have hplace := List.find?_some hfound
      obtain rfl : place' = place := of_decide_eq_true hplace
      have hfirst := placed_first hfound hkept
      simp only [placed] at hfound
      simp only [hfound, hkept]
      exact hm.step hname hfirst hstands

/-- **Under the canonical name of a name, a table is kept for its own.** -/
theorem mergeNamed_stands {tables : Std.TreeMap String (Table R)} {name first : String}
    {own : Table R} (hown : tables[name]? = some own)
    (hfirst : (mergeNamed tol tables).canonical[name]? = some first) :
    ∃ kept, tables[first]? = some kept ∧ (mergeNamed tol tables).unique[first]? = some kept ∧
      StandsFor tol kept own := by
  have hall := mergeNamed_merging tol tables
  obtain ⟨place, hplaced⟩ := exists_placed tol hown
  obtain ⟨first', kept, own', hcanonical, hfirst', hown', hunique, hstands⟩ :=
    hall.canonical (name, place) hplaced
  obtain rfl : first' = first := Option.some.inj (hcanonical.symm.trans hfirst)
  obtain rfl : own = own' := Option.some.inj (hown.symm.trans hown')
  exact ⟨kept, hfirst', hunique, hstands⟩

/-- Without tolerances, it is the table of the name. -/
theorem mergeNamed_canonical (htol : tol.Exact) {tables : Std.TreeMap String (Table R)}
    {name first : String} {t : Table R} (ht : tables[name]? = some t)
    (hfirst : (mergeNamed tol tables).canonical[name]? = some first) :
    tables[first]? = some t ∧ (mergeNamed tol tables).unique[first]? = some t := by
  obtain ⟨kept, htable, hunique, hstands⟩ := mergeNamed_stands ht hfirst
  obtain rfl := hstands.eq htol
  exact ⟨htable, hunique⟩

end Table

end WeakForm
