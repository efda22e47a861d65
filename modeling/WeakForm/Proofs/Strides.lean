import Mathlib.Data.List.Perm.Subperm
import WeakForm.Proofs.ComponentPlaces

/-!
# Strides and splits lead to the places of the layout

Scalarization finds the entries of operands by arithmetic of its own for every operator. A product
moves through the lists of its factors by strides, a sum splits the list of its summand before and
behind the index that it sums over, and an indexing computes a component of its operand and
positions for the indices of it. Here each of them is compared with the layout: what is read is
the entry at the place that the layout gives the component of the operand.

* `flatten_append` — a layout that is split anywhere;
* `FreeIndices.strides_of_sublist` — strides for some of the indices lead to a place of theirs;
* `Expr.place_factor` — the entry of a factor;
* `Expr.place_sum`, `Expr.place_summand` — the entries of a sum and of its summand;
* `AxisSource.map_position`, `FreeIndices.map_place` — what is read of an operand that is indexed.
-/

namespace WeakForm

/-- A layout is split anywhere: the axes in front run over blocks of the axes behind. -/
theorem flatten_append {p q dims dims' : List Nat} (hp : p.length = dims.length)
    (hq : q.length = dims'.length) :
    flatten (p ++ q) (dims ++ dims') = flatten p dims * shapeSize dims' + flatten q dims' := by
  induction p generalizing dims with
  | nil =>
    obtain rfl := List.eq_nil_of_length_eq_zero hp.symm
    simp [flatten]
  | cons k p ih =>
    cases dims with
    | nil => cases hp
    | cons d dims =>
      -- the first axis is scaled by all that follow, and so is the place of the rest
      have hp := Nat.succ.inj hp
      have hsize : shapeSize (dims ++ dims') = shapeSize dims * shapeSize dims' := by
        rw [shapeSize_eq_prod, List.prod_append]
        rfl
      rw [List.cons_append, List.cons_append, flatten_cons (by simp [hp, hq]), ih hp, hsize,
        flatten_cons hp]
      ring

/-! ## Strides -/

theorem offset_cons (p s : Nat) (positions strides : List Nat) :
    offset (p :: positions) (s :: strides) = p * s + offset positions strides :=
  rfl

namespace FreeIndices

variable {free free' out first last : FreeIndices} {f : FreeIndex} {σ : Env} {i : IndexId} {d : Nat}

theorem length_positions (free : FreeIndices) (σ : Env) :
    (free.positions σ).length = free.dims.length := by
  simp [positions, dims]

theorem size_append : size (first ++ last) = size first * size last := by
  simp [size_eq_prod, dims]

/-- The place of positions splits with the free indices. -/
theorem flatten_positions_append (first last : FreeIndices) (σ : Env) :
    flatten (positions (first ++ last) σ) (dims (first ++ last)) =
      flatten (first.positions σ) first.dims * last.size +
        flatten (last.positions σ) last.dims := by
  rw [positions, dims, List.map_append, List.map_append]
  exact flatten_append (length_positions first σ) (length_positions last σ)

/-- The first free index is scaled by the size of the others. -/
theorem flatten_positions_cons (f : FreeIndex) (free : FreeIndices) (σ : Env) :
    flatten (positions (f :: free) σ) (dims (f :: free)) =
      σ f.id * free.size + flatten (free.positions σ) free.dims :=
  flatten_cons (length_positions free σ)

theorem dim?_cons_self (f : FreeIndex) (free : FreeIndices) :
    dim? (f :: free) f.id = some f.dim := by
  simp [dim?]

theorem dim?_cons_of_ne (h : f.id ≠ i) : dim? (f :: free) i = dim? free i := by
  simp [dim?, h]

theorem dim?_eq_none (h : ∀ f ∈ free, f.id ≠ i) : free.dim? i = none := by
  rw [dim?, List.find?_eq_none.mpr (by simpa using h)]
  rfl

theorem strides_cons_of_some (h : free.dim? f.id = some d) : free.strides (f :: out) =
    ((free.strides out).2 :: (free.strides out).1, (free.strides out).2 * d) := by
  rw [strides, h]

theorem strides_cons_of_none (h : free.dim? f.id = none) :
    free.strides (f :: out) = (0 :: (free.strides out).1, (free.strides out).2) := by
  rw [strides, h]

/-- Only the dimensions of the indices in question count. -/
theorem strides_congr (h : ∀ f ∈ out, free.dim? f.id = free'.dim? f.id) :
    free.strides out = free'.strides out := by
  induction out with
  | nil => rfl
  | cons f out ih =>
    rw [strides, strides, ih fun g hg => h g (List.mem_cons_of_mem f hg), h f List.mem_cons_self]

/-- **Strides lead to a place.** In a list that is laid out by some of the indices, positions for
all of them move a place to that of the positions for the own ones, and the stride in front of all
is the length of the list. -/
theorem strides_of_sublist (h : free.Sublist out) (hs : out.Sorted) :
    offset (out.positions σ) (free.strides out).1 = flatten (free.positions σ) free.dims ∧
      (free.strides out).2 = free.size := by
  induction h with
  | slnil => exact ⟨rfl, rfl⟩
  | @cons own out f hsub ih =>
    -- an index that the list is not laid out by has no stride
    obtain ⟨hplace, hsize⟩ := ih hs.tail
    have hnone : dim? own f.id = none :=
      dim?_eq_none fun g hg => (Nat.ne_of_lt (hs.head_lt (hsub.subset hg))).symm
    rw [strides_cons_of_none hnone]
    refine ⟨?_, hsize⟩
    rw [positions, List.map_cons, offset_cons, Nat.mul_zero, Nat.zero_add]
    exact hplace
  | @cons_cons own out f hsub ih =>
    obtain ⟨hplace, hsize⟩ := ih hs.tail
    -- the indices behind do not see that there is one more in front
    have hbehind : strides (f :: own) out = strides own out :=
      strides_congr fun g hg => dim?_cons_of_ne (Nat.ne_of_lt (hs.head_lt hg))
    rw [strides_cons_of_some (dim?_cons_self f own), hbehind, hsize]
    refine ⟨?_, Nat.mul_comm _ _⟩
    rw [flatten_positions_cons, positions, List.map_cons, offset_cons]
    exact congrArg (σ f.id * size own + ·) hplace

/-- Of sorted lists, one whose entries are in the other is a part of it. -/
theorem Sorted.sublist (hs : free.Sorted) (hs' : out.Sorted) (h : ∀ f ∈ free, f ∈ out) :
    free.Sublist out := by
  have hnodup : free.Nodup := List.Pairwise.imp (fun hlt heq => by
    rw [heq] at hlt
    exact Nat.lt_irrefl _ hlt) hs
  have : Std.Antisymm fun f g : FreeIndex => f.id < g.id :=
    ⟨fun _ _ hlt hgt => absurd hgt (Nat.lt_asymm hlt)⟩
  exact List.sublist_of_subperm_of_pairwise (hnodup.subperm h) hs hs'

end FreeIndices

namespace Expr

variable {R : Type} {a e : Expr R} {c : List Nat} {σ : Env}

/-- **The entry of a factor.** The component of a product and the strides of its indices lead to
the place of a factor's own component at its own indices. -/
theorem place_factor (hs : e.free.Sorted) (hsa : a.free.Sorted) (hfree : ∀ f ∈ a.free, f ∈ e.free)
    (hshape : a.shape = [] ∨ a.shape = e.shape) :
    flatten c e.shape * a.block + offset (e.free.positions σ) (a.free.strides e.free).1 =
      a.placeAt (c.take a.rank) σ := by
  -- the offset is the place of the positions of the factor
  rw [(FreeIndices.strides_of_sublist (hsa.sublist hs hfree) hs).1, placeAt, rank, flatten_take]
  rcases hshape with hnil | hsame
  · -- a factor without axes has one block for all components
    rw [block, hnil, List.isEmpty_nil, if_pos rfl]
    simp [flatten]
  -- a factor with axes has the components of the result
  · rw [block, ← hsame]
    split
    · next hnil =>
      rw [List.isEmpty_iff.mp hnil]
      simp [flatten]
    · rfl

end Expr

/-! ## Splits -/

namespace FreeIndices

variable {free : FreeIndices} {i : IndexId} {d : Nat} {σ : Env}

/-- An index splits the others into the smaller ones in front and the larger ones behind. -/
theorem Sorted.split (hs : free.Sorted) (hd : ⟨i, d⟩ ∈ free) :
    free = free.before i ++ ⟨i, d⟩ :: free.behind i ∧
      free.erase i = free.before i ++ free.behind i := by
  induction free with
  | nil => cases hd
  | cons f free ih =>
    rw [before, behind, erase]
    rcases List.mem_cons.mp hd with rfl | hd
    · -- all that follows is larger
      have hlt : ∀ g ∈ free, i < g.id := fun g hg => hs.head_lt hg
      have hnone : free.filter (·.id < i) = [] :=
        List.filter_eq_nil_iff.mpr fun g hg => by simpa using Nat.le_of_lt (hlt g hg)
      have hall : free.filter (i < ·.id) = free :=
        List.filter_eq_self.mpr fun g hg => by simpa using hlt g hg
      have hothers : free.filter (·.id != i) = free :=
        List.filter_eq_self.mpr fun g hg => by simpa using (Nat.ne_of_lt (hlt g hg)).symm
      simp [hnone, hall, hothers]
    · -- the first index is in front, and what follows is split
      have hlt : f.id < i := hs.head_lt hd
      have hne : f.id ≠ i := Nat.ne_of_lt hlt
      obtain ⟨hfree, herase⟩ := ih hs.tail hd
      rw [List.filter_cons_of_pos (by simpa using hlt),
        List.filter_cons_of_neg (by simpa using Nat.le_of_lt hlt),
        List.filter_cons_of_pos (by simpa using hne)]
      exact ⟨congrArg (f :: ·) hfree, congrArg (f :: ·) herase⟩

/-- Indices in front of one and behind it are the others. -/
theorem Sorted.mem_of_mem_split (hs : free.Sorted) (hd : ⟨i, d⟩ ∈ free) {f : FreeIndex}
    (hf : f ∈ free.before i ∨ f ∈ free.behind i) : f ∈ free.erase i := by
  rw [(hs.split hd).2]
  exact List.mem_append.mpr hf

theorem ne_of_mem_before {f : FreeIndex} (hf : f ∈ free.before i) : f.id ≠ i :=
  Nat.ne_of_lt (of_decide_eq_true (List.mem_filter.mp hf).2)

theorem ne_of_mem_behind {f : FreeIndex} (hf : f ∈ free.behind i) : f.id ≠ i :=
  (Nat.ne_of_lt (of_decide_eq_true (List.mem_filter.mp hf).2)).symm

/-- An index has no part in the positions for others. -/
theorem positions_bind (h : ∀ f ∈ free, f.id ≠ i) (j : Nat) :
    free.positions (σ.bind [i] [j]) = free.positions σ :=
  List.map_congr_left fun f hf => Env.bind_of_ne σ j (h f hf)

end FreeIndices

namespace Expr

variable {R : Type} {a e : Expr R} {c : List Nat} {σ : Env} {i : IndexId} {d : Nat}

/-- Where the free indices are split, blocks of those behind follow one another. -/
theorem placeAt_append {first last : FreeIndices} (h : e.free = first ++ last) : e.placeAt c σ =
    (flatten c e.shape * first.size + flatten (first.positions σ) first.dims) * last.size +
      flatten (last.positions σ) last.dims := by
  rw [placeAt, h, FreeIndices.size_append, FreeIndices.flatten_positions_append]
  ring

/-- The place of a component in the part of the layout in front of an index. -/
def frontPlace (a : Expr R) (i : IndexId) (c : List Nat) (σ : Env) : Nat :=
  flatten c a.shape * (a.free.before i).size +
    flatten ((a.free.before i).positions σ) (a.free.before i).dims

/-- The place of positions in the part of the layout behind an index. -/
def behindPlace (a : Expr R) (i : IndexId) (σ : Env) : Nat :=
  flatten ((a.free.behind i).positions σ) (a.free.behind i).dims

/-- The place in front is within the axes and the indices in front. -/
theorem frontPlace_lt (hs : a.free.Sorted) (hd : ⟨i, d⟩ ∈ a.free) (hc : InShape c a.shape)
    (hσ : (a.free.erase i).InRange σ) :
    a.frontPlace i c σ < shapeSize a.shape * (a.free.before i).size := by
  have hrange : (a.free.before i).InRange σ := fun f hf => hσ f (hs.mem_of_mem_split hd (.inl hf))
  exact mul_add_lt_mul (flatten_lt hc) (flatten_lt hrange.inShape)

/-- The place behind is within the indices behind. -/
theorem behindPlace_lt (hs : a.free.Sorted) (hd : ⟨i, d⟩ ∈ a.free)
    (hσ : (a.free.erase i).InRange σ) : a.behindPlace i σ < (a.free.behind i).size := by
  have hrange : (a.free.behind i).InRange σ := fun f hf => hσ f (hs.mem_of_mem_split hd (.inr hf))
  exact flatten_lt hrange.inShape

/-- **The entry of a sum** over an index: the part in front runs over blocks of the part behind. -/
theorem place_sum (hs : a.free.Sorted) (hd : ⟨i, d⟩ ∈ a.free) (hshape : e.shape = a.shape)
    (hfree : e.free = a.free.erase i) :
    e.placeAt c σ = a.frontPlace i c σ * (a.free.behind i).size + a.behindPlace i σ := by
  rw [placeAt_append (hfree.trans (hs.split hd).2), hshape]
  rfl

/-- **The entry of a summand**: the index itself steps over the part behind it. -/
theorem place_summand (hs : a.free.Sorted) (hd : ⟨i, d⟩ ∈ a.free) (j : Nat) :
    a.placeAt c (σ.bind [i] [j]) =
      a.frontPlace i c σ * (a.free.behind i).size * d + a.behindPlace i σ +
        j * (a.free.behind i).size := by
  have hbefore : (a.free.before i).positions (σ.bind [i] [j]) = (a.free.before i).positions σ :=
    FreeIndices.positions_bind (fun _ hf => FreeIndices.ne_of_mem_before hf) j
  have hbehind : (a.free.behind i).positions (σ.bind [i] [j]) = (a.free.behind i).positions σ :=
    FreeIndices.positions_bind (fun _ hf => FreeIndices.ne_of_mem_behind hf) j
  have hsize : FreeIndices.size (⟨i, d⟩ :: a.free.behind i) = d * (a.free.behind i).size := rfl
  -- the index stands in front of the part behind it, with the position `j`
  rw [placeAt_append (hs.split hd).1, hbefore, hsize, FreeIndices.flatten_positions_cons, hbehind,
    Env.bind_self, frontPlace, behindPlace]
  ring

end Expr

/-! ## Sources of positions -/

section Sources

variable {R : Type} {out : FreeIndices} {i : IndexId} {k : Nat} {σ : Env}

/-- The position at the place of an index is that of the index. -/
theorem FreeIndices.getD_place (h : (out.place i : Checked R Nat) = .ok k) :
    (out.positions σ).getD k 0 = σ i := by
  unfold place at h
  split at h
  · next hk =>
    cases h
    obtain ⟨hlt, hi, -⟩ := List.findIdx?_eq_some_iff_getElem.mp hk
    rw [List.getD_eq_getElem?_getD, positions, List.getElem?_map, List.getElem?_eq_getElem hlt]
    exact congrArg σ (eq_of_beq hi)
  · cases h

/-- A free index of the result has a place. -/
theorem FreeIndices.exists_place (h : out.has i) : ∃ k, (out.place i : Checked R Nat) = .ok k := by
  unfold place
  cases hk : out.findIdx? (·.id == i) with
  | some k => exact ⟨k, rfl⟩
  | none =>
    obtain ⟨f, hf, hi⟩ := List.any_eq_true.mp h
    have hno := List.findIdx?_eq_none_iff.mp hk f hf
    rw [hi] at hno
    cases hno

/-- The position on an axis is what its index resolves to. -/
theorem AxisSource.position_ofIndex {j : Index} {source : AxisSource}
    (h : (ofIndex out j : Checked R AxisSource) = .ok source) :
    source.position (out.positions σ) = σ.resolve j := by
  cases j with
  | fixed p =>
    cases h
    rfl
  | free i =>
    obtain ⟨k, hk, rfl⟩ := map_eq_ok.mp h
    exact FreeIndices.getD_place hk

/-- An axis whose index is fixed or free in the result has a source. -/
theorem AxisSource.exists_ofIndex {j : Index} (h : ∀ i, j = .free i → out.has i) :
    ∃ source, (ofIndex out j : Checked R AxisSource) = .ok source := by
  cases j with
  | fixed p => exact ⟨_, rfl⟩
  | free i =>
    obtain ⟨k, hk⟩ := FreeIndices.exists_place (R := R) (h i rfl)
    exact ⟨.free k, map_eq_ok.mpr ⟨k, hk, rfl⟩⟩

/-- **The component that an indexing reads** is the one that its indices resolve to. -/
theorem AxisSource.map_position {is : List Index} {axes : List AxisSource}
    (h : is.mapM (fun j => (liftM (ofIndex out j : Checked R _) : Result R _)) = .ok axes) :
    axes.map (·.position (out.positions σ)) = is.map σ.resolve := by
  rw [← List.forall₂_eq_eq_eq, List.forall₂_map_left_iff, List.forall₂_map_right_iff]
  exact (mapM_eq_ok.mp h).flip.imp fun source j hj => position_ofIndex (lift_eq_ok.mp hj)

/-- **The positions at which an indexing reads** are those of the operand's indices. -/
theorem FreeIndices.map_place {free : FreeIndices} {places : List Nat}
    (h : free.mapM (fun f => (liftM (out.place f.id : Checked R _) : Result R _)) = .ok places) :
    places.map (fun k => (out.positions σ).getD k 0) = free.positions σ := by
  rw [← List.forall₂_eq_eq_eq, List.forall₂_map_left_iff]
  refine List.forall₂_map_right_iff.mpr ?_
  exact (mapM_eq_ok.mp h).flip.imp fun k f hf => getD_place (lift_eq_ok.mp hf)

end Sources

end WeakForm
