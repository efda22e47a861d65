import Mathlib.Algebra.BigOperators.Group.List.Basic
import Mathlib.Data.List.Forall2
import Mathlib.Data.List.Nodup
import Mathlib.Tactic.Ring
import WeakForm.Index.Layout

/-!
# The row-major layout is a bijection

A component lies in a shape when each of its positions lies on its axis. The list of
components is made by advancing one component again and again, with carries from axis to axis.
It holds exactly the components of the shape, each at the place that `flatten` gives it.

* `InShape` — a component of a shape;
* `flatten_cons`, `flatten_lt` — the place of a component;
* `exists_flatten`, `eq_of_flatten_eq` — every place is that of one component;
* `advance_advances` — to advance a component is to go to the next place;
* `Listed`, `Listed.run` — the components that are listed so far;
* `mem_components`, `length_components`, `getElem?_components` — the list of components;
* `components_cons` — the list as rows, one for each position on the first axis;
* `components_bijection` — listing and flattening are inverse to each other;
* `getElem?_flatMap` — the place of an entry in rows of one length.
-/

namespace WeakForm

/-! ## Quotients and remainders -/

theorem mul_add_div_of_lt {a b n : Nat} (hb : b < n) : (a * n + b) / n = a := by
  rw [Nat.mul_comm, Nat.mul_add_div (by omega), Nat.div_eq_of_lt hb, Nat.add_zero]

theorem mul_add_mod_of_lt {a b n : Nat} (hb : b < n) : (a * n + b) % n = b := by
  rw [Nat.mul_comm, Nat.mul_add_mod, Nat.mod_eq_of_lt hb]

/-- A place in a row of a rectangle is a place in the rectangle. -/
theorem mul_add_lt_mul {a b m n : Nat} (ha : a < m) (hb : b < n) : a * n + b < m * n := by
  have hle : (a + 1) * n ≤ m * n := Nat.mul_le_mul_right n ha
  rw [Nat.add_mul, Nat.one_mul] at hle
  omega

/-- What is below a product is a quotient below the first factor and a remainder below the
second. -/
theorem exists_mul_add {i m n : Nat} (h : i < m * n) : ∃ a < m, ∃ b < n, a * n + b = i := by
  have hn : 0 < n := by
    rcases Nat.eq_zero_or_pos n with rfl | hn
    · rw [Nat.mul_zero] at h
      exact absurd h (Nat.not_lt_zero i)
    · exact hn
  refine ⟨i / n, Nat.div_lt_of_lt_mul (by rwa [Nat.mul_comm]), i % n, Nat.mod_lt i hn, ?_⟩
  rw [Nat.mul_comm]
  exact Nat.div_add_mod i n

/-! ## Components of a shape -/

/-- Each position lies on its axis. -/
def InShape (c dims : List Nat) : Prop :=
  List.Forall₂ (· < ·) c dims

variable {c dims : List Nat} {p d : Nat}

theorem InShape.length (h : InShape c dims) : c.length = dims.length :=
  h.length_eq

@[simp] theorem inShape_nil : InShape [] [] :=
  .nil

@[simp] theorem inShape_cons : InShape (p :: c) (d :: dims) ↔ p < d ∧ InShape c dims :=
  List.forall₂_cons

@[simp] theorem shapeSize_nil : shapeSize [] = 1 := rfl

@[simp] theorem shapeSize_cons : shapeSize (d :: dims) = d * shapeSize dims := rfl

theorem shapeSize_eq_prod (dims : List Nat) : shapeSize dims = dims.prod := rfl

theorem FreeIndices.size_eq_prod (free : FreeIndices) : free.size = free.dims.prod := rfl

/-- Where there is a component, the first one has position zero on every axis. -/
theorem inShape_zeros (h : 0 < shapeSize dims) : InShape (dims.map fun _ => 0) dims := by
  induction dims with
  | nil => exact inShape_nil
  | cons d dims ih =>
    rw [shapeSize_cons] at h
    exact inShape_cons.mpr ⟨Nat.pos_of_mul_pos_right h, ih (Nat.pos_of_mul_pos_left h)⟩

/-! ## Rows of one length -/

/-- Rows of one length. -/
theorem length_rows {α β : Type} {l : List α} {f : α → List β} {n : Nat}
    (h : ∀ a ∈ l, (f a).length = n) : (l.flatMap f).length = l.length * n := by
  rw [List.length_flatMap, List.map_congr_left h, List.map_const', List.sum_replicate,
    Nat.nsmul_eq_mul]

/-- In rows of one length, an entry stands after the rows before its own. -/
theorem getElem?_flatMap {α β : Type} {l : List α} {f : α → List β} {n i j : Nat} {a : α}
    (h : ∀ a ∈ l, (f a).length = n) (hi : l[i]? = some a) (hj : j < n) :
    (l.flatMap f)[i * n + j]? = (f a)[j]? := by
  induction l generalizing i with
  | nil => simp at hi
  | cons b l ih =>
    have hb := h b List.mem_cons_self
    rw [List.flatMap_cons]
    cases i with
    -- row zero comes first
    | zero =>
      obtain rfl : b = a := by simpa using hi
      rw [Nat.zero_mul, Nat.zero_add, List.getElem?_append_left (by omega)]
    -- The first row is passed over whole, which leaves row `i` of the rest.
    | succ i =>
      have hle : (f b).length ≤ (i + 1) * n + j := by
        rw [hb, Nat.succ_mul]
        omega
      have hsub : (i + 1) * n + j - (f b).length = i * n + j := by
        rw [hb, Nat.succ_mul]
        omega
      rw [List.getElem?_append_right hle, hsub]
      exact ih (fun x hx => h x (List.mem_cons_of_mem _ hx)) (by simpa using hi)

/-! ## Places -/

/-- An axis in front of others runs slowest. -/
theorem flatten_cons (h : c.length = dims.length) :
    flatten (p :: c) (d :: dims) = p * shapeSize dims + flatten c dims := by
  -- a place that is known before the remaining axes is scaled by all of them
  have key : ∀ (c dims : List Nat) (place : Nat), c.length = dims.length →
      (c.zip dims).foldl (fun place x => place * x.2 + x.1) place =
        place * shapeSize dims + flatten c dims := by
    intro c
    -- there are no axes, so the place is not scaled
    induction c with
    | nil =>
      intro dims place hl
      obtain rfl := List.eq_nil_of_length_eq_zero hl.symm
      simp [flatten, shapeSize]
    -- one axis scales the place and adds its position
    | cons q c ih =>
      intro dims place hl
      cases dims with
      | nil => cases hl
      | cons d dims =>
        have hl := Nat.succ.inj hl
        have hrest := ih dims (0 * d + q) hl
        rw [flatten, List.zip_cons_cons, List.foldl_cons, List.foldl_cons, ih dims _ hl, hrest,
          shapeSize_cons]
        ring
  have := key c dims (0 * d + p) h
  rw [flatten, List.zip_cons_cons, List.foldl_cons, this]
  ring

/-- Positions beyond the axes do not matter. -/
theorem flatten_take (c dims : List Nat) : flatten (c.take dims.length) dims = flatten c dims := by
  have hzip : (c.take dims.length).zip dims = c.zip dims := by
    induction c generalizing dims with
    | nil => simp
    | cons p c ih =>
      cases dims with
      | nil => simp
      | cons d dims => simp [ih]
  rw [flatten, flatten, hzip]

/-- The place of components in a shape is below the size of the shape. -/
theorem flatten_lt (h : InShape c dims) : flatten c dims < shapeSize dims := by
  induction h with
  | nil => exact Nat.zero_lt_one
  | @cons p d c dims hp hc ih =>
    rw [flatten_cons hc.length_eq, shapeSize_cons]
    calc p * shapeSize dims + flatten c dims < p * shapeSize dims + shapeSize dims :=
          Nat.add_lt_add_left ih _
      _ = (p + 1) * shapeSize dims := by ring
      _ ≤ d * shapeSize dims := Nat.mul_le_mul_right _ hp

/-- Every place is that of a component. -/
theorem exists_flatten {k : Nat} (h : k < shapeSize dims) :
    ∃ c, InShape c dims ∧ flatten c dims = k := by
  induction dims generalizing k with
  | nil =>
    obtain rfl : k = 0 := Nat.lt_one_iff.mp h
    exact ⟨[], inShape_nil, rfl⟩
  | cons d dims ih =>
    rw [shapeSize_cons] at h
    obtain ⟨p, hp, j, hj, rfl⟩ := exists_mul_add h
    obtain ⟨c, hc, rfl⟩ := ih hj
    exact ⟨p :: c, inShape_cons.mpr ⟨hp, hc⟩, flatten_cons hc.length⟩

/-- A component is determined by its place. -/
theorem eq_of_flatten_eq {c' : List Nat} (hc : InShape c dims) (hc' : InShape c' dims)
    (h : flatten c dims = flatten c' dims) : c = c' := by
  induction hc generalizing c' with
  -- without axes there is one place
  | nil =>
    cases hc'
    rfl
  | @cons p d c dims hp hc ih =>
    cases hc' with
    | @cons p' _ c' _ hp' hc' =>
      rw [flatten_cons hc.length_eq, flatten_cons hc'.length_eq] at h
      -- the position on the first axis is the quotient, and the rest has the remainder
      have hquot := congrArg (· / shapeSize dims) h
      have hrem := congrArg (· % shapeSize dims) h
      simp only [mul_add_div_of_lt (flatten_lt hc), mul_add_div_of_lt (flatten_lt hc')] at hquot
      simp only [mul_add_mod_of_lt (flatten_lt hc), mul_add_mod_of_lt (flatten_lt hc')] at hrem
      rw [hquot, ih hc' hrem]

/-- The first place has position zero on every axis. -/
theorem flatten_zeros (dims : List Nat) : flatten (dims.map fun _ => 0) dims = 0 := by
  induction dims with
  | nil => rfl
  | cons d dims ih =>
    rw [List.map_cons, flatten_cons (List.length_map _), ih]
    simp

/-! ## Listing -/

/-- What advancing a component gives: the component at the next place, or after the last
one the first one and a carry. -/
inductive Advances (c dims : List Nat) : List Nat × Bool → Prop
  | next {c' : List Nat} (hc : InShape c' dims) (hplace : flatten c' dims = flatten c dims + 1) :
      Advances c dims (c', false)
  | carry (hlast : flatten c dims + 1 = shapeSize dims) :
      Advances c dims (dims.map fun _ => 0, true)

/-- Advancing moves to the next place or carries over all axes. -/
theorem advance_advances (h : InShape c dims) : Advances c dims (advance c dims) := by
  -- from the last axis to the first; a carry comes from the axes behind
  induction h with
  | nil => exact .carry rfl
  | @cons p d c dims hp hc ih =>
    have hplace : flatten (p :: c) (d :: dims) = p * shapeSize dims + flatten c dims :=
      flatten_cons hc.length_eq
    rw [advance]
    generalize advance c dims = rest at ih
    cases ih with
    | @next c' hc' hnext =>
      -- no carry reaches the first axis
      refine .next (.cons hp hc') ?_
      rw [flatten_cons hc'.length, hplace, hnext]
      omega
    | carry hlast =>
      have hrow : p * shapeSize dims + shapeSize dims = (p + 1) * shapeSize dims := by ring
      show Advances (p :: c) (d :: dims)
        (if p + 1 < d then ((p + 1) :: dims.map fun _ => 0, false)
          else (0 :: dims.map fun _ => 0, true))
      split
      · next hlt =>
        have hzeros := inShape_zeros (Nat.zero_lt_of_lt (flatten_lt hc))
        refine .next (.cons hlt hzeros) ?_
        rw [flatten_cons hzeros.length, flatten_zeros, hplace]
        omega
      · next hlt =>
        -- the first axis has come to its end, too
        obtain rfl : p + 1 = d := by omega
        refine .carry ?_
        rw [hplace, shapeSize_cons]
        omega

/-- The first `k` components of a shape, each at its place. -/
structure Listed (dims : List Nat) (k : Nat) (listed : Array (List Nat)) : Prop where
  size : listed.size = k
  entry : ∀ (i : Nat) (c : List Nat), listed[i]? = some c → InShape c dims ∧ flatten c dims = i

theorem listed_empty (dims : List Nat) : Listed dims 0 #[] where
  size := rfl
  entry i c h := by simp at h

namespace Listed

variable {k : Nat} {listed : Array (List Nat)}

/-- The component at the next place is added. -/
theorem push (h : Listed dims k listed) (hc : InShape c dims) (hplace : flatten c dims = k) :
    Listed dims (k + 1) (listed.push c) where
  size := by rw [Array.size_push, h.size]
  entry i c' hi := by
    rw [Array.getElem?_push, h.size] at hi
    split at hi
    · next hk =>
      cases hi
      exact ⟨hc, hplace.trans hk.symm⟩
    · exact h.entry i c' hi

/-- **The loop lists what is left to list**, if it starts at the next place. -/
theorem run {n : Nat} (h : Listed dims k listed) (htotal : k + n = shapeSize dims)
    (hnext : 0 < n → InShape c dims ∧ flatten c dims = k) :
    Listed dims (shapeSize dims) (pushComponents dims n c listed) := by
  induction n generalizing k c listed with
  -- everything is listed
  | zero =>
    obtain rfl : k = shapeSize dims := htotal
    exact h
  -- the current components are pushed, and the odometer moves on
  | succ n ih =>
    obtain ⟨hc, hplace⟩ := hnext n.succ_pos
    refine ih (h.push hc hplace) (by omega) ?_
    intro hn
    have hadvance := advance_advances hc
    generalize advance c dims = next at hadvance
    cases hadvance with
    | next hc' hplace' => exact ⟨hc', by rw [hplace', hplace]⟩
    | carry hlast =>
      -- only the last component carries over all axes
      omega

end Listed

/-- All components are listed. -/
theorem components_listed (dims : List Nat) :
    Listed dims (shapeSize dims) (components dims).toArray := by
  rw [components, Array.toArray_toList]
  refine (listed_empty dims).run (Nat.zero_add _) ?_
  intro hpos
  exact ⟨inShape_zeros hpos, flatten_zeros dims⟩

theorem length_components (dims : List Nat) : (components dims).length = shapeSize dims := by
  rw [← List.size_toArray, (components_listed dims).size]

/-- An entry is the component at its place. -/
theorem inShape_of_getElem? {k : Nat} (h : (components dims)[k]? = some c) :
    InShape c dims ∧ flatten c dims = k := by
  rw [← List.getElem?_toArray] at h
  exact (components_listed dims).entry k c h

/-- Every component stands at its place. -/
theorem getElem?_components (h : InShape c dims) :
    (components dims)[flatten c dims]? = some c := by
  have hlt : flatten c dims < (components dims).length := by
    rw [length_components]
    exact flatten_lt h
  obtain ⟨hc, hplace⟩ := inShape_of_getElem? (List.getElem?_eq_getElem hlt)
  rw [List.getElem?_eq_getElem hlt, eq_of_flatten_eq hc h hplace]

/-- The listed components are those of the shape. -/
theorem mem_components : c ∈ components dims ↔ InShape c dims := by
  constructor
  · intro h
    obtain ⟨k, hk⟩ := List.mem_iff_getElem?.mp h
    exact (inShape_of_getElem? hk).1
  · intro h
    exact List.mem_of_getElem? (getElem?_components h)

/-- No components are listed twice. -/
theorem nodup_components (dims : List Nat) : (components dims).Nodup := by
  refine List.pairwise_iff_getElem.mpr ?_
  intro i j hi hj hij heq
  -- both would be the place of one component
  have hplace := inShape_of_getElem? (List.getElem?_eq_getElem hi)
  have hplace' := inShape_of_getElem? (List.getElem?_eq_getElem hj)
  rw [heq] at hplace
  have hsame : i = j := hplace.2.symm.trans hplace'.2
  omega

/-- A list with every component at its place is the list of components. -/
theorem components_eq {l : List (List Nat)} (hl : l.length = shapeSize dims)
    (h : ∀ c, InShape c dims → l[flatten c dims]? = some c) : components dims = l := by
  refine List.ext_getElem? fun k => ?_
  rcases Nat.lt_or_ge k (shapeSize dims) with hk | hk
  · obtain ⟨c, hc, rfl⟩ := exists_flatten hk
    rw [getElem?_components hc, h c hc]
  · rw [List.getElem?_eq_none (by rwa [length_components]), List.getElem?_eq_none (by rwa [hl])]

@[simp] theorem components_nil : components [] = [[]] := rfl

/-- The components with one position on the first axis are a row of their own. -/
theorem components_cons (d : Nat) (dims : List Nat) : components (d :: dims) =
    (List.range d).flatMap fun p => (components dims).map (p :: ·) := by
  have hrow : ∀ q ∈ List.range d, ((components dims).map (q :: ·)).length = shapeSize dims :=
    fun q _ => by rw [List.length_map, length_components]
  -- A list with the right length and the right entry at each place is the list of components.
  refine components_eq ?_ ?_
  · rw [length_rows hrow, List.length_range, shapeSize_cons]
  · intro c h
    cases h with
    | @cons p _ c _ hp hc =>
      rw [flatten_cons hc.length_eq,
        getElem?_flatMap hrow (List.getElem?_range hp) (flatten_lt hc), List.getElem?_map,
        getElem?_components hc, Option.map_some]

/-- **Listing and flattening are inverse bijections.** There are as many components as the shape
has; the entry at a place has one position on each axis, and its place is that one; and every
component is the entry at its own place, and occurs once. -/
theorem components_bijection (dims : List Nat) :
    (components dims).length = shapeSize dims ∧
      (∀ (k : Nat) (c : List Nat), (components dims)[k]? = some c →
        c.length = dims.length ∧ InShape c dims ∧ flatten c dims = k) ∧
      ∀ c : List Nat, InShape c dims →
        (components dims)[flatten c dims]? = some c ∧ (components dims).count c = 1 := by
  refine ⟨length_components dims, fun k c hk => ?_, fun c hc => ?_⟩
  · obtain ⟨hc, hplace⟩ := inShape_of_getElem? hk
    exact ⟨hc.length, hc, hplace⟩
  · have hmem := mem_components.mpr hc
    exact ⟨getElem?_components hc, List.count_eq_one_of_mem (nodup_components dims) hmem⟩

/-- A carry over an axis with one position. -/
theorem components_bijection_carried :
    InShape [1, 0, 0] [2, 1, 3] ∧ (components [2, 1, 3]).length = 6 ∧
      (components [2, 1, 3])[3]? = some [1, 0, 0] ∧ flatten [1, 0, 0] [2, 1, 3] = 3 ∧
      (components [2, 1, 3]).count [1, 0, 0] = 1 := by
  obtain ⟨hlength, hentry, hplace⟩ := components_bijection [2, 1, 3]
  have hc : InShape [1, 0, 0] [2, 1, 3] := by simp
  have hthird : (components [2, 1, 3])[3]? = some [1, 0, 0] := by decide
  exact ⟨hc, hlength, hthird, (hentry 3 _ hthird).2.2, (hplace _ hc).2⟩

/-- An axis without positions leaves no component. -/
example : components [2, 0, 3] = [] := by decide

end WeakForm
