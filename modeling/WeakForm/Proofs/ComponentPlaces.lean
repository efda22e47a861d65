import WeakForm.Graph.Scalarization
import WeakForm.Proofs.Chains
import WeakForm.Proofs.Layout
import WeakForm.Proofs.Peeling

/-!
# Places of components

The scalar components of an expression are listed with its axes outside and its free
indices inside, both row-major. Here is the place of a component at positions for the free
indices, and each list whose entries are made place by place is read there: which entry stands
in a place, and what it is made from.

* `Assignment`, `FreeIndices.assignment` — the positions of free indices, as the layout gives them;
* `placeAt`, `InRange` — the place of an entry, and the positions it has one for;
* `inShape_factors`, `inRange_bind`, `IndicesOk.inShape` — positions for operands;
* `eachScalar_ok`, `zipScalars_ok`, `terminalScalars_ok` — the entries of a function, of a
  combination and of a chain.
-/

namespace WeakForm

/-! ## Positions for free indices -/

/-- Positions for free indices. -/
abbrev Assignment := List (IndexId × Nat)

namespace Assignment

/-- The position of an index, zero for one without. -/
def position (σ : Assignment) (i : IndexId) : Nat :=
  (σ.lookup i).getD 0

/-- All assignments to free indices, in layout order. -/
def all (free : FreeIndices) : List Assignment :=
  (components free.dims).map ((free.map (·.id)).zip ·)

end Assignment

/-- Each free index has a position on its range. -/
def FreeIndices.InRange (free : FreeIndices) (σ : Env) : Prop :=
  ∀ f ∈ free, σ f.id < f.dim

namespace FreeIndices

variable {free : FreeIndices} {σ : Env}

/-- The positions of the free indices, in order. -/
def positions (free : FreeIndices) (σ : Env) : List Nat :=
  free.map fun f => σ f.id

/-- The positions of the free indices lie in their dimensions. -/
theorem InRange.inShape (h : free.InRange σ) : InShape (free.positions σ) free.dims := by
  induction free with
  | nil => exact inShape_nil
  | cons f free ih =>
    refine inShape_cons.mpr ⟨h f List.mem_cons_self, ih fun g hg => ?_⟩
    exact h g (List.mem_cons_of_mem _ hg)

/-- The converse. -/
theorem inRange_of_inShape (h : InShape (free.positions σ) free.dims) : free.InRange σ := by
  induction free with
  | nil => simp [InRange]
  | cons g free ih =>
    obtain ⟨hg, h⟩ := inShape_cons.mp h
    intro f hf
    rcases List.mem_cons.mp hf with rfl | hf
    · exact hg
    · exact ih h f hf

theorem Sorted.nodup_ids (h : free.Sorted) : (free.map (·.id)).Nodup := by
  rw [List.Nodup, List.pairwise_map]
  exact List.Pairwise.imp (fun {_ _} => Nat.ne_of_lt) h

end FreeIndices

/-- Where all values of a key agree, that value is found. -/
theorem lookup_eq_some {α : Type} {pairs : List (IndexId × α)} {i : IndexId} {v : α}
    (hi : ∃ w, (i, w) ∈ pairs) (hv : ∀ p ∈ pairs, p.1 = i → p.2 = v) :
    pairs.lookup i = some v := by
  induction pairs with
  | nil => simp at hi
  | cons p pairs ih =>
    rw [List.lookup_cons]
    by_cases hp : i = p.1
    · rw [hp, beq_self_eq_true]
      exact congrArg some (hv p List.mem_cons_self hp.symm)
    · -- the pair with the key comes later
      rw [beq_eq_false_iff_ne.mpr hp]
      obtain ⟨w, hw⟩ := hi
      refine ih ⟨w, ?_⟩ fun q hq => hv q (List.mem_cons_of_mem _ hq)
      refine (List.mem_cons.mp hw).resolve_left ?_
      rintro rfl
      exact hp rfl

/-- An assignment gives an index the position paired with it. -/
theorem Assignment.position_zip {ids : List IndexId} {τ : Env} {i : IndexId} (hi : i ∈ ids) :
    Assignment.position (ids.zip (ids.map τ)) i = τ i := by
  induction ids with
  | nil => cases hi
  | cons j ids ih =>
    rw [Assignment.position, List.map_cons, List.zip_cons_cons, List.lookup_cons]
    by_cases hij : i = j
    · rw [hij, beq_self_eq_true]
      rfl
    · rw [beq_eq_false_iff_ne.mpr hij]
      exact ih ((List.mem_cons.mp hi).resolve_left hij)

/-- Positions that are bound to different indices are found again. -/
theorem Expr.map_bind {ids : List IndexId} {positions : List Nat} (hn : ids.Nodup)
    (hl : ids.length = positions.length) (σ : Env) :
    ids.map (σ.bind ids positions) = positions := by
  induction ids generalizing positions with
  | nil => exact (List.eq_nil_of_length_eq_zero hl.symm).symm
  | cons i ids ih =>
    cases positions with
    | nil => cases hl
    | cons p positions =>
      obtain ⟨hi, hn⟩ := List.nodup_cons.mp hn
      have hhead : σ.bind (i :: ids) (p :: positions) i = p := by
        simp [Env.bind]
      -- the first pair is passed by the other indices
      have htail : ids.map (σ.bind (i :: ids) (p :: positions)) =
          ids.map (σ.bind ids positions) := by
        refine List.map_congr_left fun j hj => ?_
        have hne : j ≠ i := by
          rintro rfl
          exact hi hj
        rw [Env.bind, List.zip_cons_cons, List.lookup_cons, beq_eq_false_iff_ne.mpr hne]
        rfl
      rw [List.map_cons, hhead, htail, ih hn (Nat.succ.inj hl)]

/-- The positions of free indices as an assignment. -/
def FreeIndices.assignment (free : FreeIndices) (σ : Env) : Assignment :=
  (free.map (·.id)).zip ((free.map (·.id)).map σ)

namespace FreeIndices

variable {free : FreeIndices} {σ : Env} {f : FreeIndex}

theorem position_assignment (hf : f ∈ free) : (free.assignment σ).position f.id = σ f.id :=
  Assignment.position_zip (List.mem_map_of_mem hf)

/-- Positions within the dimensions are those of some environment. -/
theorem Sorted.exists_positions (hs : free.Sorted) {p : List Nat} (hp : InShape p free.dims) :
    ∃ σ : Env, free.InRange σ ∧ free.positions σ = p := by
  have hl : (free.map (·.id)).length = p.length := by
    rw [List.length_map, hp.length, dims, List.length_map]
  have hpos : free.positions (Env.bind (fun _ => 0) (free.map (·.id)) p) = p := by
    have := Expr.map_bind hs.nodup_ids hl fun _ => 0
    rwa [List.map_map] at this
  exact ⟨_, inRange_of_inShape (by rwa [hpos]), hpos⟩

theorem length_all : (Assignment.all free).length = free.size := by
  rw [Assignment.all, List.length_map, length_components]
  rfl

/-- All assignments are those of positions in range. -/
theorem Sorted.mem_all (hs : free.Sorted) {s : Assignment} (h : s ∈ Assignment.all free) :
    ∃ σ : Env, free.InRange σ ∧ s = free.assignment σ := by
  obtain ⟨p, hp, rfl⟩ := List.mem_map.mp h
  obtain ⟨σ, hσ, rfl⟩ := hs.exists_positions (mem_components.mp hp)
  refine ⟨σ, hσ, ?_⟩
  rw [assignment, positions, List.map_map]
  rfl

/-- The assignments stand in row-major order. -/
theorem getElem?_all (hσ : free.InRange σ) :
    (Assignment.all free)[flatten (free.positions σ) free.dims]? = some (free.assignment σ) := by
  rw [Assignment.all, List.getElem?_map, getElem?_components hσ.inShape, assignment, List.map_map]
  rfl

end FreeIndices

namespace Expr

variable {R : Type}

/-! ## Places -/

/-- The place of a component and positions for the free indices. -/
def placeAt (e : Expr R) (c : List Nat) (σ : Env) : Nat :=
  flatten c e.shape * e.free.size + flatten (e.free.positions σ) e.free.dims

/-- A component stands within the list. -/
theorem placeAt_lt {e : Expr R} {c : List Nat} {σ : Env} (hc : InShape c e.shape)
    (hσ : e.free.InRange σ) : e.placeAt c σ < shapeSize e.shape * e.free.size := by
  have hpos := flatten_lt hσ.inShape
  calc e.placeAt c σ
      < flatten c e.shape * e.free.size + e.free.size := Nat.add_lt_add_left hpos _
    _ = (flatten c e.shape + 1) * e.free.size := by ring
    _ ≤ shapeSize e.shape * e.free.size := Nat.mul_le_mul_right _ (flatten_lt hc)

/-- Every place is that of a component. -/
theorem exists_placeAt {e : Expr R} (hs : e.free.Sorted) {k : Nat}
    (hk : k < shapeSize e.shape * e.free.size) :
    ∃ c σ, InShape c e.shape ∧ e.free.InRange σ ∧ e.placeAt c σ = k := by
  obtain ⟨i, hi, j, hj, rfl⟩ := exists_mul_add hk
  obtain ⟨c, hc, rfl⟩ := exists_flatten hi
  obtain ⟨p, hp, rfl⟩ := exists_flatten hj
  obtain ⟨σ, hσ, rfl⟩ := hs.exists_positions hp
  exact ⟨c, σ, hc, hσ, rfl⟩

theorem take_rank {e : Expr R} {c : List Nat} (hc : InShape c e.shape) : c.take e.rank = c := by
  rw [rank, ← hc.length, List.take_length]

/-! ### The layout -/

section Layout

variable {shape c : List Nat} {free : FreeIndices} {σ : Env}

theorem length_row (c : List Nat) (free : FreeIndices) :
    ((Assignment.all free).map (c, ·)).length = free.size := by
  rw [List.length_map, FreeIndices.length_all]

/-- One row for each component, with an assignment of positions in each place. -/
theorem length_places (shape : List Nat) (free : FreeIndices) :
    ((components shape).flatMap fun c => (Assignment.all free).map (c, ·)).length =
      shapeSize shape * free.size := by
  rw [length_rows fun c _ => length_row c free, length_components]

/-- A component stands at its place in the layout. -/
theorem getElem?_places (hc : InShape c shape) (hσ : free.InRange σ) :
    ((components shape).flatMap fun c => (Assignment.all free).map (c, ·))[
        flatten c shape * free.size + flatten (free.positions σ) free.dims]? =
      some (c, free.assignment σ) := by
  rw [getElem?_flatMap (fun c _ => length_row c free) (getElem?_components hc)
    (flatten_lt hσ.inShape), List.getElem?_map, FreeIndices.getElem?_all hσ, Option.map_some]

end Layout

/-! ## Positions for operands -/

/-- A component of a product, as a component of each factor. -/
theorem inShape_factors {c p q : List Nat} (h : p = [] ∨ q = [])
    (hc : InShape c (if p = [] then q else p)) :
    InShape (c.take p.length) p ∧ InShape (c.take q.length) q := by
  have hall : ∀ {shape : List Nat}, InShape c shape → InShape (c.take shape.length) shape :=
    fun hc => by rwa [← hc.length, List.take_length]
  -- one factor has no axes, and the other has all of them
  by_cases hp : p = []
  · subst hp
    rw [if_pos rfl] at hc
    exact ⟨inShape_nil, hall hc⟩
  · obtain rfl := h.resolve_left hp
    rw [if_neg hp] at hc
    exact ⟨hall hc, inShape_nil⟩

/-- Positions stay in range when one more index is bound within its dimension. -/
theorem inRange_bind {free : FreeIndices} {σ : Env} {i : IndexId} {d j : Nat} (hs : free.Sorted)
    (hσ : (free.erase i).InRange σ) (hd : free.dim? i = some d) (hj : j < d) :
    free.InRange (σ.bind [i] [j]) := by
  intro f hf
  by_cases hi : f.id = i
  · have hfd : f = ⟨i, d⟩ := hs.eq_of_id hf (FreeIndices.mem_of_dim? hd) hi
    rw [hfd, Env.bind_self]
    exact hj
  · rw [Env.bind_of_ne σ j hi]
    exact hσ f (FreeIndices.mem_erase.mpr ⟨hf, hi⟩)

/-- Indices that lie on their axes select a component. -/
theorem IndicesOk.inShape {a : Expr R} {is : List Index} {σ : Env} (hl : is.length = a.rank)
    (hok : IndicesOk a is a.shape) (hσ : (unary (.indexed is) a).free.InRange σ) :
    InShape (is.map σ.resolve) a.shape := by
  rw [InShape, List.forall₂_map_left_iff, List.forall₂_iff_zip]
  refine ⟨hl, fun {j d} hmem => ?_⟩
  cases j with
  | fixed p => exact hok.bounded p d hmem
  | free i =>
    -- a free entry is a free index of the result, with the dimension of its axis
    refine hσ ⟨i, d⟩ ?_
    rw [free_unary]
    refine FreeIndices.mem_union_right (FreeIndices.compatible_of_not_has fun y hy => ?_) ?_
    · exact hok.fresh _ (List.of_mem_zip (Signature.mem_indexedFree.mp hy)).1
    · exact Signature.mem_indexedFree.mpr hmem

/-! ## Functions and combinations -/

section Entries

variable [Scalar R] {a : Expr R} {as bs rs : Array (Expr R)}

/-- Every entry of a function of components is built from the entry in its place. -/
theorem eachScalar_ok {op : UnaryOp} (h : eachScalar op as = .ok rs) :
    rs.size = as.size ∧
      ∀ (k : Nat) s, as[k]? = some s → ∃ r, rs[k]? = some r ∧ op.apply s = .ok r := by
  rw [eachScalar, Array.mapM_eq_mapM_toList] at h
  obtain ⟨results, hresults, h⟩ := (map_eq_ok).mp h
  subst h
  refine ⟨?_, fun k s hs => ?_⟩
  · rw [List.size_toArray, length_of_mapM hresults, Array.length_toList]
  · rw [← Array.getElem?_toList] at hs
    obtain ⟨r, hr, he⟩ := getElem?_of_mapM hresults hs
    exact ⟨r, by simpa using hr, lift_eq_ok.mp he⟩

omit [Scalar R] in
theorem scalarAt_eq_ok {k : Nat} {s : Expr R} : scalarAt as k = .ok s ↔ as[k]? = some s := by
  unfold scalarAt
  cases as[k]? <;> simp

/-- Every entry of a combination is built from one entry of each operand. -/
theorem zipScalars_ok [DecidableEq R] {op : BinaryOp} (h : zipScalars op as bs = .ok rs) :
    (as.size = 1 ∨ as.size = rs.size) ∧ (bs.size = 1 ∨ bs.size = rs.size) ∧
      rs.size = max as.size bs.size ∧
      ∀ k < rs.size, ∃ s t r, as[if as.size = 1 then 0 else k]? = some s ∧
        bs[if bs.size = 1 then 0 else k]? = some t ∧ op.apply s t = .ok r ∧ rs[k]? = some r := by
  dsimp only [zipScalars] at h
  -- both checks of the sizes were passed
  split at h
  swap
  · cases h
  next hsa =>
  split at h
  swap
  · cases h
  next hsb =>
  obtain ⟨results, hresults, h⟩ := bind_eq_ok.mp h
  cases h
  -- there is a result for each component of the longer list
  have hlen : results.toArray.size = max as.size bs.size := by
    rw [List.size_toArray, length_of_mapM hresults, List.length_range]
  rw [hlen]
  refine ⟨hsa, hsb, rfl, fun k hk => ?_⟩
  obtain ⟨r, hr, he⟩ := getElem?_of_mapM hresults (List.getElem?_range hk)
  obtain ⟨s, hs, he⟩ := bind_eq_ok.mp he
  obtain ⟨t, ht, he⟩ := bind_eq_ok.mp he
  exact ⟨s, t, r, scalarAt_eq_ok.mp hs, scalarAt_eq_ok.mp ht, lift_eq_ok.mp he, by simpa using hr⟩

end Entries

/-! ## Chains -/

section Terminals

variable {e : Expr R} {as : Array (Expr R)}

theorem isScalar_of_analyse {m : ModifiedTerminal R} (h : e.analyse = .ok (some m)) :
    e.isScalar :=
  (analyse_eq_some.mp h).1

/-- The renaming that gives each free index its position. -/
theorem onIndex_positions {free : FreeIndices} {i : IndexId} {σ : Env} (hi : free.has i) :
    (Renaming.ofPairs ((free.map (·.id)).zip ((free.positions σ).map Index.fixed))).onIndex
      (.free i) = .fixed (σ i) := by
  obtain ⟨d, hd⟩ := FreeIndices.has_iff.mp hi
  have hpairs : (free.map (·.id)).zip ((free.positions σ).map Index.fixed) =
      free.map fun f => (f.id, Index.fixed (σ f.id)) := by
    rw [FreeIndices.positions, List.map_map, List.zip_map']
    -- the last pair of an index is the one that counts
    rfl
  -- of several pairs for one index the last would count, but all of them agree
  have hfind : (Renaming.ofPairs ((free.map (·.id)).zip
      ((free.positions σ).map Index.fixed))).find? i = some (.fixed (σ i)) := by
    rw [hpairs]
    refine lookup_eq_some ⟨.fixed (σ i), ?_⟩ fun p hp heq => ?_
    · exact List.mem_reverse.mpr (List.mem_map_of_mem hd)
    · obtain ⟨f, -, rfl⟩ := List.mem_map.mp (List.mem_reverse.mp hp)
      rw [← heq]
  rw [Renaming.onIndex, hfind]
  rfl

variable [Scalar R]

/-- Fixing all free indices is replacing them by their positions. -/
theorem mapIndices_positions {σ : Env} (hc : Canonical e) (hm : e.isModifiedTerminal) :
    e.mapIndices (Renaming.ofPairs ((e.free.map (·.id)).zip
      ((e.free.positions σ).map Index.fixed))).onIndex = e.mapIndices σ.fix :=
  mapIndices_congr hc hm (fun _ hi => onIndex_positions hi) fun _ => rfl

variable [DecidableEq R]

/-- A chain is fixed by giving each free index its position. -/
theorem fix_chain {r : Expr R} {σ : Env} (hc : Canonical e) (hm : e.isModifiedTerminal)
    (hz : e.isZero = false) (h : e.fix (e.free.map (·.id)) (e.free.positions σ) = .ok r) :
    r = e.mapIndices σ.fix := by
  unfold fix at h
  split at h
  swap
  · cases h
  rw [substitute_eq_rename] at h
  rw [rename_chain hc hm hz h, mapIndices_positions hc hm]

/-- Every entry of a chain is the chain with its free indices fixed and its axes indexed,
and it has a descriptor. -/
theorem terminalScalars_ok (hc : Canonical e) (hm : e.isModifiedTerminal)
    (hz : e.isZero = false) (h : terminalScalars e = .ok as) :
    as.size = shapeSize e.shape * e.free.size ∧
      ∀ c σ, InShape c e.shape → e.free.InRange σ → ∃ s m, as[e.placeAt c σ]? = some s ∧
        (e.mapIndices σ.fix).index (c.map .fixed) = .ok s ∧ s.analyse = .ok (some m) := by
  unfold terminalScalars at h
  rw [hz, if_neg Bool.false_ne_true] at h
  -- both loops succeed: over the assignments, then over the components
  obtain ⟨fixed, hfixed, h⟩ := bind_eq_ok.mp h
  obtain ⟨scalars, hscalars, h⟩ := bind_eq_ok.mp h
  cases h
  obtain ⟨rows, hrows, rfl⟩ := flatMapM_eq_ok.mp hscalars
  -- a row for each component, with one of the fixed chains in each place
  have hlen : fixed.length = e.free.size := by
    rw [length_of_mapM hfixed, length_components]
    rfl
  have hrow : ∀ row ∈ rows, (id row).length = e.free.size := fun row hr => by
    obtain ⟨c, -, hc⟩ := mem_of_mapM hrows hr
    rw [id, length_of_mapM hc, hlen]
  have hflat : rows.flatten = rows.flatMap id := by rw [List.flatMap_id]
  refine ⟨?_, fun c σ hcs hσ => ?_⟩
  · rw [List.size_toArray, hflat, length_rows hrow, length_of_mapM hrows, length_components]
  · obtain ⟨a, ha, hfix⟩ := getElem?_of_mapM hfixed (getElem?_components hσ.inShape)
    obtain ⟨row, hr, hrow'⟩ := getElem?_of_mapM hrows (getElem?_components hcs)
    obtain ⟨s, hs, hentry⟩ := getElem?_of_mapM hrow' ha
    obtain rfl := fix_chain hc hm hz (lift_eq_ok.mp hfix)
    obtain ⟨r, hindex, hentry⟩ := bind_eq_ok.mp hentry
    obtain ⟨found, hanalyse, hentry⟩ := bind_eq_ok.mp hentry
    cases found with
    | none => cases hentry
    | some m =>
      cases hentry
      refine ⟨s, m, ?_, lift_eq_ok.mp hindex, hanalyse⟩
      have hplace := getElem?_flatMap hrow hr (flatten_lt hσ.inShape)
      rw [List.getElem?_toArray, hflat, placeAt]
      exact hplace.trans hs

end Terminals

end Expr

end WeakForm
