import WeakForm.Proofs.Deduplication
import WeakForm.Proofs.Rational

/-!
# Tables kept on a first match

A table joins the first one kept before it that is close to it, and is kept itself where there
is none. A tolerance is measured by the second of two values, and a value need not be close to
itself, so being close is no equivalence, and there are no classes of close tables to speak of.
What is kept is told by the order of the comparisons alone.

* `Table.Merged.add_cases` — what happens to one more table;
* `Table.Merged.Joining`, `merge_joining` — what every step keeps;
* `merge_of_apart` — tables of which no later one is close to an earlier one;
* `Table.Merged.FirstMatch`, `merge_firstMatch` — the tables of a list, and that merging what
  is kept changes nothing.
-/

namespace WeakForm.Table

variable {R : Type}

namespace Merged

variable {m : Merged R} {i j k : Nat}

/-- One more table leaves the first ones as they are. -/
theorem FirstAt.concat {unique : List (Table R)} {place : Nat} (h : m.FirstAt k i) :
    FirstAt { unique, places := m.places ++ [place] } k i := by
  have hlt := (List.getElem?_eq_some_iff.mp h.1).1
  refine ⟨getElem?_concat_eq_some.mpr (.inl h.1), fun j hj => ?_⟩
  rw [List.getElem?_append_left (Nat.lt_trans hj hlt)]
  exact h.2 j hj

variable [Scalar R] {tol : Tolerance R} {tables : List (Table R)} {t : Table R}

/-- **What happens to one more table**: it joins the first one kept that is close to it, or
there is none, and it is kept. -/
theorem add_cases (tol : Tolerance R) (m : Merged R) (t : Table R) :
    (∃ k kept, m.unique[k]? = some kept ∧ isClose tol kept t ∧
        (∀ j < k, ∀ other, m.unique[j]? = some other → ¬isClose tol other t) ∧
        add tol m t = { m with places := m.places ++ [k] }) ∨
      (∀ other ∈ m.unique, ¬isClose tol other t) ∧
        add tol m t = { unique := m.unique ++ [t], places := m.places ++ [m.unique.length] } := by
  unfold add
  -- the first table that the new one is close to, if there is one
  split
  · next k hk =>
    obtain ⟨hlt, hclose, hbefore⟩ := List.findIdx?_eq_some_iff_getElem.mp hk
    refine .inl ⟨k, m.unique[k], List.getElem?_eq_getElem hlt, hclose, ?_, rfl⟩
    intro j hj other hother
    obtain ⟨-, rfl⟩ := List.getElem?_eq_some_iff.mp hother
    exact hbefore j hj
  · next hnone =>
    refine .inr ⟨fun other hother => ?_, rfl⟩
    rw [List.findIdx?_eq_none_iff.mp hnone other hother]
    exact Bool.false_ne_true

/-! ## What every step keeps -/

/-- The tables that are done have their places, given in ascending order. But for the first one
at each place, a table is close to the one kept there, and none is close to one kept before. -/
structure Joining (tol : Tolerance R) (tables : List (Table R)) (m : Merged R) : Prop where
  places : m.Places tol tables
  dense : ∀ i k : Nat, m.places[i]? = some k → ∀ l < k, ∃ j < i, m.places[j]? = some l
  joins : ∀ (i k : Nat) (t : Table R), tables[i]? = some t → m.places[i]? = some k →
    m.FirstAt k i ∨ ∃ kept, m.unique[k]? = some kept ∧ isClose tol kept t
  passes : ∀ (i k : Nat) (t : Table R), tables[i]? = some t → m.places[i]? = some k →
    ∀ j < k, ∀ other, m.unique[j]? = some other → ¬isClose tol other t

/-- One more table gets the place `k`, which is the next one or that of a close table, and is
close to no table at a smaller place. -/
theorem Joining.next {unique : List (Table R)} (h : Joining tol tables m)
    (hplaces : Places tol { unique, places := m.places ++ [k] } (tables ++ [t]))
    (hkeeps : ∀ j < m.unique.length, unique[j]? = m.unique[j]?) (hk : k ≤ m.unique.length)
    (hjoins : k = m.unique.length ∨ ∃ kept, m.unique[k]? = some kept ∧ isClose tol kept t)
    (hpasses : ∀ j < k, ∀ other, m.unique[j]? = some other → ¬isClose tol other t) :
    Joining tol (tables ++ [t]) { unique, places := m.places ++ [k] } := by
  have hold : ∀ {i l : Nat}, m.places[i]? = some l → l < m.unique.length := h.places.place_lt
  -- the entry at `i` is one of those before, or the new one
  have hentry : ∀ {i l : Nat} {t' : Table R}, (tables ++ [t])[i]? = some t' →
      (m.places ++ [k])[i]? = some l →
      tables[i]? = some t' ∧ m.places[i]? = some l ∨
        i = m.places.length ∧ t = t' ∧ k = l := by
    intro i l t' ht hl
    have hlength := h.places.length
    rcases getElem?_concat_eq_some.mp ht with ht | ⟨hi, ht⟩ <;>
      rcases getElem?_concat_eq_some.mp hl with hl | ⟨hi', hl⟩
    · exact .inl ⟨ht, hl⟩
    · have hlt := (List.getElem?_eq_some_iff.mp ht).1
      omega
    · have hlt := (List.getElem?_eq_some_iff.mp hl).1
      omega
    · exact .inr ⟨hi', ht, hl⟩
  refine ⟨hplaces, fun i l hl => ?_, fun i l t' ht hl => ?_, fun i l t' ht hl => ?_⟩
  · rcases getElem?_concat_eq_some.mp hl with hl | ⟨rfl, rfl⟩
    · intro l' hl'
      obtain ⟨j, hj, hplace⟩ := h.dense i l hl l' hl'
      exact ⟨j, hj, getElem?_concat_eq_some.mpr (.inl hplace)⟩
    · -- every smaller place is given to a table before
      intro l' hl'
      have hlt : l' < m.unique.length := Nat.lt_of_lt_of_le hl' hk
      obtain ⟨j, -, hplace, -⟩ := h.places.first l' _ (List.getElem?_eq_getElem hlt)
      exact ⟨j, (List.getElem?_eq_some_iff.mp hplace).1,
        getElem?_concat_eq_some.mpr (.inl hplace)⟩
  · rcases hentry ht hl with ⟨ht, hl⟩ | ⟨rfl, rfl, rfl⟩
    · rw [hkeeps l (hold hl)]
      exact (h.joins i l t' ht hl).imp FirstAt.concat id
    · rcases hjoins with rfl | ⟨kept, hkept, hclose⟩
      · -- the next place is given to no table before
        refine .inl ⟨hl, fun j hj hplace => ?_⟩
        rw [List.getElem?_append_left hj] at hplace
        exact Nat.lt_irrefl _ (hold hplace)
      · rw [hkeeps k (List.getElem?_eq_some_iff.mp hkept).1]
        exact .inr ⟨kept, hkept, hclose⟩
  · intro j hj other hother
    rcases hentry ht hl with ⟨ht, hl⟩ | ⟨rfl, rfl, rfl⟩
    · rw [hkeeps j (Nat.lt_trans hj (hold hl))] at hother
      exact h.passes i l t' ht hl j hj other hother
    · rw [hkeeps j (Nat.lt_of_lt_of_le hj hk)] at hother
      exact hpasses j hj other hother

/-- One more table. -/
theorem Joining.add (h : Joining tol tables m) (t : Table R) :
    Joining tol (tables ++ [t]) (Merged.add tol m t) := by
  have hplaces := h.places.add t
  rcases add_cases tol m t with ⟨k, kept, hkept, hclose, hbefore, heq⟩ | ⟨hnone, heq⟩
  · rw [heq] at hplaces ⊢
    exact h.next hplaces (fun j _ => rfl) (List.getElem?_eq_some_iff.mp hkept).1.le
      (.inr ⟨kept, hkept, hclose⟩) hbefore
  · rw [heq] at hplaces ⊢
    exact h.next hplaces (fun j hj => List.getElem?_append_left hj) (Nat.le_refl _) (.inl rfl)
      fun j _ other hother => hnone other (List.mem_of_getElem? hother)

end Merged

variable [Scalar R] {tol : Tolerance R}

/-- Merging follows the run. -/
theorem merge_joining (tol : Tolerance R) (tables : List (Table R)) :
    (merge tol tables).Joining tol tables := by
  refine foldl_induct (P := fun done (m : Merged R) => m.Joining tol done) ?_
    fun _ t _ _ h => h.add t
  exact ⟨merge_places tol [], fun i k h => by simp at h, fun i k t h => by simp at h,
    fun i k t h => by simp at h⟩

/-! ## The tables of a list -/

/-- What merging makes of a list of tables. -/
structure Merged.FirstMatch (tol : Tolerance R) (tables : List (Table R)) (m : Merged R) :
    Prop where
  length : m.places.length = tables.length
  valid : ∀ place ∈ m.places, place < m.unique.length
  /-- What is kept is the first table at its place. -/
  first : ∀ (k : Nat) (kept : Table R), m.unique[k]? = some kept → ∃ i,
    m.FirstAt k i ∧ tables[i]? = some kept
  ascending : ∀ i j k l : Nat, m.FirstAt k i → m.FirstAt l j → k < l → i < j
  /-- Every other table is close to what is kept at its place. -/
  joins : ∀ (i k : Nat) (t : Table R), tables[i]? = some t → m.places[i]? = some k →
    ¬m.FirstAt k i → ∃ kept, m.unique[k]? = some kept ∧ isClose tol kept t
  /-- No table is close to what is kept at a smaller place. -/
  passes : ∀ (i k : Nat) (t : Table R), tables[i]? = some t → m.places[i]? = some k →
    ∀ j < k, ∀ other, m.unique[j]? = some other → ¬isClose tol other t
  apart : m.unique.Pairwise fun kept later => ¬isClose tol kept later

/-- What the steps keep, as a whole. -/
theorem Merged.Joining.firstMatch {tables : List (Table R)} {m : Merged R}
    (h : m.Joining tol tables) : m.FirstMatch tol tables where
  length := h.places.length
  valid place hplace := by
    obtain ⟨i, hi⟩ := List.mem_iff_getElem?.mp hplace
    exact h.places.place_lt hi
  first k kept hkept := by
    obtain ⟨i, hi, hfirst⟩ := h.places.first k kept hkept
    exact ⟨i, hfirst, hi⟩
  ascending i j k l hk hl hlt := by
    -- before the first table at `l` there is one at `k`
    obtain ⟨j', hj', hplace⟩ := h.dense j l hl.1 k hlt
    have hle : i ≤ j' := by
      by_contra hgt
      exact hk.2 j' (Nat.lt_of_not_le hgt) hplace
    exact Nat.lt_of_le_of_lt hle hj'
  joins i k t ht hk hfirst := (h.joins i k t ht hk).resolve_left hfirst
  passes := h.passes
  apart := by
    refine List.pairwise_iff_getElem.mpr fun j k hj hk hjk => ?_
    -- the first table at a place is not close to any at the places before
    obtain ⟨i, hi, hplace, -⟩ := h.places.first k _ (List.getElem?_eq_getElem hk)
    exact h.passes i k _ hi hplace j hjk _ (List.getElem?_eq_getElem hj)

/-- Tables of which no later one is close to an earlier one are all kept. -/
theorem merge_of_apart {tables : List (Table R)}
    (h : tables.Pairwise fun kept later => ¬isClose tol kept later) :
    merge tol tables = { unique := tables, places := List.range tables.length } := by
  refine foldl_induct (P := fun done (m : Merged R) =>
    m = { unique := done, places := List.range done.length }) rfl ?_
  rintro done t m hprefix rfl
  have hdone : ∀ other ∈ done, ¬isClose tol other t := fun other hother =>
    (List.pairwise_append.mp (h.sublist hprefix.sublist)).2.2 other hother t
      (List.mem_singleton.mpr rfl)
  -- none that is kept is close to the next table
  rcases Merged.add_cases tol { unique := done, places := List.range done.length } t with
    ⟨k, kept, hkept, hclose, -⟩ | ⟨-, heq⟩
  · exact absurd hclose (hdone kept (List.mem_of_getElem? hkept))
  · rw [heq, List.length_append, List.length_singleton, List.range_succ]

/-- **Merging keeps the first of the tables that match.** A table is kept unless one kept before
is close to it, and stands for those that are close to it and to none kept before it. Merging
what is kept changes nothing. -/
theorem merge_firstMatch (tol : Tolerance R) (tables : List (Table R)) :
    (merge tol tables).FirstMatch tol tables ∧
      merge tol (merge tol tables).unique = {
        unique := (merge tol tables).unique
        places := List.range (merge tol tables).unique.length } := by
  have hmatch := (merge_joining tol tables).firstMatch
  exact ⟨hmatch, merge_of_apart hmatch.apart⟩

/-- Within `1`, the first and the second value are close, and so are the second and the third,
but not the first and the third. -/
example : (merge (⟨0, 1⟩ : Tolerance ℚ) ([0, 1, 2].map fun v =>
    ofFn ⟨1, 1, 1, 1⟩ fun _ _ _ _ => v)).places = [0, 0, 1] := by
  decide +kernel

end WeakForm.Table
