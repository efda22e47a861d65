import WeakForm.Proofs.Layout
import WeakForm.Table.Basic

/-!
# Places in tables

The layout of a table puts every permutation, entity, point and dof within the shape at a
place of its own, and every place holds the value of one of them.

* `TableShape.Has` — a position within a shape;
* `place_lt`, `exists_place` — positions are places, and places are positions;
* `get?_ofFn`, `get?_eq_get` — the value at a position;
* `eq_of_get` — tables are their values at all positions;
* `all_values` — a property of all values is one of the values at all positions.
-/

namespace WeakForm

/-! ## Positions -/

namespace TableShape

variable {s : TableShape} {p e q d : Nat}

/-- The shape has the position. -/
structure Has (s : TableShape) (p e q d : Nat) : Prop where
  permutation : p < s.permutations
  entity : e < s.entities
  point : q < s.points
  dof : d < s.dofs

/-- Where there is one permutation, it is the first. -/
theorem Has.permutation_eq (h : s.Has p e q d) (hs : s.permutations = 1) : p = 0 :=
  Nat.lt_one_iff.mp (hs ▸ h.permutation)

theorem Has.firstPermutation (h : s.Has p e q d) : s.Has 0 e q d :=
  ⟨Nat.zero_lt_of_lt h.permutation, h.entity, h.point, h.dof⟩

theorem Has.firstPoint (h : s.Has p e q d) : s.Has p e 0 d :=
  ⟨h.permutation, h.entity, Nat.zero_lt_of_lt h.point, h.dof⟩

theorem Has.firstEntity (h : s.Has p e q d) : s.Has p 0 q d :=
  ⟨h.permutation, Nat.zero_lt_of_lt h.entity, h.point, h.dof⟩

theorem Has.place_lt (h : s.Has p e q d) : s.place p e q d < s.size :=
  mul_add_lt_mul (mul_add_lt_mul (mul_add_lt_mul h.permutation h.entity) h.point) h.dof

/-- Every place is that of a position. -/
theorem exists_place {i : Nat} (h : i < s.size) :
    ∃ p e q d, s.Has p e q d ∧ s.place p e q d = i := by
  -- the layout nests the four numbers, the dof innermost
  obtain ⟨row, hrow, d, hd, rfl⟩ := exists_mul_add h
  obtain ⟨block, hblock, q, hq, rfl⟩ := exists_mul_add hrow
  obtain ⟨p, hp, e, he, rfl⟩ := exists_mul_add hblock
  exact ⟨p, e, q, d, ⟨hp, he, hq, hd⟩, rfl⟩

end TableShape

namespace Table

variable {R : Type} {s : TableShape} {f : Nat → Nat → Nat → Nat → R} {p e q d : Nat}

/-- A table made of a function has its values. -/
theorem get?_ofFn (h : s.Has p e q d) : (ofFn s f).get? p e q d = some (f p e q d) := by
  have hd : s.place p e q d / s.dofs = (p * s.entities + e) * s.points + q :=
    mul_add_div_of_lt h.dof
  have hq : ((p * s.entities + e) * s.points + q) / s.points = p * s.entities + e :=
    mul_add_div_of_lt h.point
  have hlt : s.place p e q d < s.size := h.place_lt
  rw [get?, ofFn, Array.getElem?_ofFn, dif_pos hlt]
  simp only [hd, hq]
  rw [mul_add_div_of_lt h.entity, mul_add_mod_of_lt h.entity, mul_add_mod_of_lt h.point]
  rw [TableShape.place, mul_add_mod_of_lt h.dof]

section Get

variable [Scalar R] {t : Table R}

theorem get_ofFn (h : s.Has p e q d) : (ofFn s f).get p e q d = f p e q d := by
  rw [get, get?_ofFn h]
  rfl

/-- Within the shape there is a value. -/
theorem get?_eq_get (h : t.shape.Has p e q d) : t.get? p e q d = some (t.get p e q d) := by
  have hlt : t.shape.place p e q d < t.values.size := t.size_values ▸ h.place_lt
  rw [get, get?, Array.getElem?_eq_getElem hlt]
  rfl

/-- Tables of one shape are equal if they have the same value at every position. -/
theorem eq_of_get {a b : Table R} (hshape : a.shape = b.shape)
    (h : ∀ p e q d, a.shape.Has p e q d → a.get p e q d = b.get p e q d) : a = b := by
  obtain ⟨s, v, hv⟩ := a
  obtain ⟨s', w, hw⟩ := b
  obtain rfl : s = s' := hshape
  have hvalues : v = w := by
    refine Array.ext (hv.trans hw.symm) fun i hi hj => ?_
    -- a place of the values is that of a position
    obtain ⟨p, e, q, d, hhas, hplace⟩ := TableShape.exists_place (hv ▸ hi : i < s.size)
    have hget := h p e q d hhas
    simp only [get, get?, hplace, Array.getElem?_eq_getElem hi, Array.getElem?_eq_getElem hj,
      Option.getD_some] at hget
    exact hget
  subst hvalues
  rfl

/-- The values are those at all positions. -/
theorem mem_values {v : R} : v ∈ t.values ↔ ∃ p e q d, t.shape.Has p e q d ∧ t.get p e q d = v := by
  constructor
  -- the value stands at a place, and so at a position
  · intro h
    obtain ⟨i, hi, rfl⟩ := Array.mem_iff_getElem.mp h
    obtain ⟨p, e, q, d, hhas, rfl⟩ := TableShape.exists_place (t.size_values ▸ hi)
    refine ⟨p, e, q, d, hhas, ?_⟩
    rw [get, get?, Array.getElem?_eq_getElem hi]
    rfl
  · rintro ⟨p, e, q, d, hhas, rfl⟩
    have h := get?_eq_get hhas
    exact Array.mem_of_getElem? h

/-- A property of all values. -/
theorem all_values {P : R → Bool} :
    t.values.all P ↔ ∀ p e q d, t.shape.Has p e q d → P (t.get p e q d) := by
  rw [Array.all_eq_true_iff_forall_mem]
  constructor
  · exact fun h p e q d hhas => h _ (mem_values.mpr ⟨p, e, q, d, hhas, rfl⟩)
  · intro h v hv
    obtain ⟨p, e, q, d, hhas, rfl⟩ := mem_values.mp hv
    exact h p e q d hhas

/-- A table has no values when its shape has no positions. -/
theorem values_isEmpty : t.values.isEmpty ↔ ∀ p e q d, ¬t.shape.Has p e q d := by
  rw [Array.isEmpty_iff]
  constructor
  · intro h p e q d hhas
    have hv := mem_values.mpr ⟨p, e, q, d, hhas, rfl⟩
    rw [h] at hv
    exact absurd hv (Array.not_mem_empty _)
  · intro h
    refine Array.eq_empty_iff_forall_not_mem.mpr fun v hv => ?_
    obtain ⟨p, e, q, d, hhas, -⟩ := mem_values.mp hv
    exact h p e q d hhas

omit [Scalar R] in
/-- A property of all positions of rows. -/
theorem forRows_iff {holds : Nat → Nat → Nat → Bool} : t.forRows holds ↔
    ∀ p < t.shape.permutations, ∀ e < t.shape.entities, ∀ q < t.shape.points, holds p e q := by
  simp only [forRows, List.all_eq_true, List.mem_range]

end Get

end Table

end WeakForm
