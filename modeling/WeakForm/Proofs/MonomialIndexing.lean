import WeakForm.Proofs.MonomialValues
import WeakForm.Proofs.Reduction

/-!
# Indexing, derivatives and restrictions of monomials

What the operators over one operand do to a monomial, and what that does to its value. An
indexing fills the slots, or gives the single function its components; the indices that it
puts in must not be summed over inside. A component tensor opens slots, a derivative adds its
directions to the only factor, and a restriction goes to all factors.

* `index_ok`, `mem_places_index`, `Within.index` — indexing;
* `Within.openSlots` — component tensors;
* `Within.derivative`, `Within.restrict` — derivatives and restrictions;
* `Within.sumOver` — index sums, which leave a monomial as it is.
-/

namespace WeakForm

variable {R A : Type} [CommRing A]

/-! ## Filling slots -/

namespace Factor

/-- Filling slots is renaming on the slots. -/
theorem fillSlot_eq_onIndex (ids : List IndexId) (is : List Index) :
    fillSlot ids is = Renaming.onIndex (ids.zip is) := by
  funext j
  cases j <;> rfl

/-- The indices of a factor after its slots are filled. -/
theorem mem_places_fillSlots {f : Factor R} {ids : List IndexId} {is : List Index}
    {x : FreeIndex} : x ∈ (f.fillSlots ids is).places ↔
      ∃ y ∈ f.places, fillSlot ids is (.free y.id) = .free x.id ∧ y.dim = x.dim := by
  -- only a free index is replaced by a free index
  have hfree : ∀ j : Index, fillSlot ids is j = .free x.id → ∃ i, j = .free i := by
    intro j hj
    cases j with
    | fixed p => cases hj
    | free i => exact ⟨i, rfl⟩
  rw [mem_places]
  show ((Index.free x.id, x.dim) ∈ (f.components.map (fillSlot ids is)).zip f.function.shape ∨
    Index.free x.id ∈ f.derivatives.map (fillSlot ids is) ∧
      x.dim = f.function.signature.gdim) ↔ _
  rw [List.zip_map_left]
  constructor
  · rintro (hx | ⟨hx, hdim⟩)
    -- a component of the factor
    · obtain ⟨⟨j, d⟩, hmem, heq⟩ := List.mem_map.mp hx
      obtain ⟨hj, hd⟩ := Prod.mk.inj heq
      obtain ⟨i, rfl⟩ := hfree j hj
      exact ⟨⟨i, d⟩, mem_places.mpr (.inl hmem), hj, hd⟩
    -- a direction of one of its derivatives
    · obtain ⟨j, hmem, hj⟩ := List.mem_map.mp hx
      obtain ⟨i, rfl⟩ := hfree j hj
      exact ⟨⟨i, x.dim⟩, mem_places.mpr (.inr ⟨hmem, hdim⟩), hj, rfl⟩
  · rintro ⟨y, hy, hfill, hdim⟩
    rcases mem_places.mp hy with hy | ⟨hy, hgdim⟩
    · exact .inl (List.mem_map.mpr ⟨_, hy, by rw [← hfill, ← hdim]; rfl⟩)
    · exact .inr ⟨List.mem_map.mpr ⟨_, hy, hfill⟩, hdim.symm.trans hgdim⟩

/-- Filling slots keeps a factor formed. -/
theorem Formed.fillSlots {f : Factor R} {gdim : Nat} (h : f.Formed gdim) (ids : List IndexId)
    (is : List Index) : (f.fillSlots ids is).Formed gdim where
  function := h.function
  gdim := h.gdim
  components := by
    show f.components.map _ = [] ∨ (f.components.map _).length = _
    rw [List.map_eq_nil_iff, List.length_map]
    exact h.components

variable [Scalar R] {M : Model R A}

/-- What fills a slot stands for the position that the slot is given. -/
theorem Formed.value_fillSlots {f : Factor R} {gdim : Nat} (h : f.Formed gdim)
    (Δ : M.Differential) {ids : List IndexId} {is : List Index} (hl : ids.length = is.length)
    (σ : Env) :
    (f.fillSlots ids is).value Δ [] σ = f.value Δ [] (σ.bind ids (is.map σ.resolve)) := by
  -- filling a slot and then resolving is resolving where the slots are bound
  have hresolve : ∀ js : List Index, (js.map (fillSlot ids is)).map σ.resolve =
      js.map (σ.bind ids (is.map σ.resolve)).resolve := by
    intro js
    rw [List.map_map, fillSlot_eq_onIndex]
    refine List.map_congr_left fun j _ => ?_
    cases j with
    | fixed p => rfl
    | free i => exact resolve_zip σ hl
  have hempty : (f.components.map (fillSlot ids is)).isEmpty = f.components.isEmpty :=
    List.isEmpty_map
  obtain ⟨t, ht⟩ := h.function
  rw [value, value]
  show Δ.onSide f.restriction (Δ.derive ((f.derivatives.map (fillSlot ids is)).map σ.resolve)
    (f.function.value M (if (f.components.map (fillSlot ids is)).isEmpty then []
      else (f.components.map (fillSlot ids is)).map σ.resolve) σ)) = _
  -- the function itself reads no index
  rw [hresolve, hresolve, hempty, ht, Expr.value_leaf_env M t _ σ]

end Factor

namespace Monomial

/-! ## Indexing -/

/-- An indexed monomial: its slots are filled, or its factors have new components. -/
theorem index_ok {m m' : Monomial R} {is : List Index} (h : m.index is = .ok m') :
    (m.slots = none ∧
      m' = { m with factors := m.factors.map fun f => { f with components := is }
                    slots := none }) ∨
    ∃ ids, m.slots = some ids ∧ (m.factors ≠ [] → ids.length = is.length) ∧
      m' = { m with factors := m.factors.map (·.fillSlots ids is), slots := none } := by
  obtain ⟨fs, hfs, h⟩ := bind_eq_ok.mp h
  cases h
  have hfs := mapM_eq_ok.mp hfs
  cases hslots : m.slots with
  -- without slots the components are overwritten
  | none =>
    rw [hslots] at hfs
    refine .inl ⟨rfl, ?_⟩
    rw [eq_map_of_forall₂ hfs fun f f' hf => (Except.ok.inj hf).symm]
  | some ids =>
    rw [hslots] at hfs
    refine .inr ⟨ids, rfl, ?_⟩
    -- one factor is enough to see that there are as many indices as slots
    have hfill : ∀ {f f' : Factor R}, f.index (some ids) is = .ok f' →
        ids.length = is.length ∧ f' = f.fillSlots ids is := by
      intro f f' hf
      unfold Factor.index at hf
      dsimp only at hf
      by_cases hl : ids.length = is.length
      · rw [if_pos hl] at hf
        cases hf
        exact ⟨hl, rfl⟩
      · rw [if_neg hl] at hf
        cases hf
    rw [eq_map_of_forall₂ hfs fun f f' hf => (hfill hf).2]
    refine ⟨fun hne => ?_, rfl⟩
    obtain ⟨f, rest, hcons⟩ := List.exists_cons_of_ne_nil hne
    rw [hcons] at hfs
    cases hfs with
    | cons hf _ => exact (hfill hf).1

/-- Indices put in place of the axes of an operand: one for each axis, each free one new to
the operand and not summed over inside. -/
structure Indexes (is : List Index) (s : Scope) : Prop where
  length : is.length = s.shape.length
  nonempty : is ≠ []
  distinct : Signature.Distinct is
  fresh : ∀ i, .free i ∈ is → s.free.has i = false
  unsummed : ∀ i, .free i ∈ is → i ∉ s.summed

/-- Only tensors are indexed. -/
theorem Indexes.shape_ne_nil {is : List Index} {s : Scope} (h : Indexes is s) : s.shape ≠ [] := by
  intro hnil
  have hl := h.length
  rw [hnil] at hl
  exact h.nonempty (List.eq_nil_of_length_eq_zero hl)

/-- An index put in is neither free nor summed over. -/
theorem Indexes.fresh_of_zip {is : List Index} {s : Scope} (h : Indexes is s) {x : FreeIndex}
    (hx : (Index.free x.id, x.dim) ∈ is.zip s.shape) :
    s.free.has x.id = false ∧ x.id ∉ s.summed :=
  ⟨h.fresh x.id (List.of_mem_zip hx).1, h.unsummed x.id (List.of_mem_zip hx).1⟩

variable {m m' : Monomial R} {gdim : Nat} {s : Scope}

/-- Where slots are filled, their indices are replaced. -/
theorem mem_places_fillSlots {ids : List IndexId} {is : List Index} {slots : Option (List IndexId)}
    {x : FreeIndex} :
    x ∈ ({ m with factors := m.factors.map (·.fillSlots ids is), slots := slots } :
        Monomial R).places ↔ Renaming.Image (ids.zip is) m.places x := by
  rw [mem_places, Renaming.Image, ← Factor.fillSlot_eq_onIndex]
  constructor
  -- a place of the new monomial is one of a factor whose slots were filled
  · rintro ⟨f', hf', hx⟩
    obtain ⟨f, hf, rfl⟩ := List.mem_map.mp hf'
    obtain ⟨y, hy, hfill⟩ := Factor.mem_places_fillSlots.mp hx
    exact ⟨y, mem_places.mpr ⟨f, hf, hy⟩, hfill⟩
  · rintro ⟨y, hy, hfill⟩
    obtain ⟨f, hf, hy⟩ := mem_places.mp hy
    exact ⟨_, List.mem_map_of_mem hf, Factor.mem_places_fillSlots.mpr ⟨y, hy, hfill⟩⟩

/-- The indices of an indexed monomial: those that were no slots, and those put in. -/
theorem mem_places_index (h : m.Within gdim s) {is : List Index} (his : Indexes is s)
    (hr : m.index is = .ok m') {x : FreeIndex} : x ∈ m'.places ↔
      (x ∈ m.places ∧ x.id ∉ m.axes) ∨ (Index.free x.id, x.dim) ∈ is.zip s.shape := by
  rcases index_ok hr with ⟨hnone, rfl⟩ | ⟨ids, hids, -, rfl⟩
  · -- a single function without components
    obtain ⟨f, hf, hcomponents, hfshape⟩ := h.single hnone his.shape_ne_nil
    rw [mem_places, mem_places, hf, axes_of_none hnone]
    simp only [List.map_cons, List.map_nil, List.mem_singleton, exists_eq_left, List.not_mem_nil,
      not_false_eq_true, and_true]
    rw [Factor.mem_places, Factor.mem_places, hcomponents, hfshape]
    simp only [List.zip_nil_left, List.not_mem_nil, false_or]
    exact or_comm
  · obtain ⟨-, hl, hnodup, -, hplaces⟩ := h.slots ids hids
    rw [mem_places_fillSlots, axes_of_some hids]
    exact image_zip (hl.trans his.length.symm) hl hnodup hplaces h.consistent

/-- An indexed monomial is scalar, and the indices put in are free in it. -/
theorem Within.index (h : m.Within gdim s) {is : List Index} (his : Indexes is s)
    (hr : m.index is = .ok m') {free : FreeIndices}
    (hfree : ∀ x, x ∈ free ↔ x ∈ s.free ∨ (Index.free x.id, x.dim) ∈ is.zip s.shape) :
    m'.Within gdim ⟨[], free, s.summed, []⟩ := by
  have hmem := fun {x : FreeIndex} => mem_places_index (x := x) h his hr
  have hslots : m'.slots = none := by
    rcases index_ok hr with ⟨-, rfl⟩ | ⟨ids, -, -, rfl⟩ <;> rfl
  -- what is put in is neither free nor summed over inside
  have hapart : ∀ x y : FreeIndex, x ∈ m.places → x.id ∉ m.axes →
      (Index.free y.id, y.dim) ∈ is.zip s.shape → x.id ≠ y.id := by
    intro x y hx haxes hy hid
    obtain ⟨hnew, hunsummed⟩ := his.fresh_of_zip hy
    rw [← hid] at hnew hunsummed
    rcases h.known x hx with hknown | hknown | hknown
    · rw [hnew] at hknown
      cases hknown
    · exact hunsummed hknown
    · exact haxes hknown
  refine ⟨?_, ?_, ?_, ?_, fun _ hne => absurd rfl hne, fun ids hids => ?_⟩
  · -- the factors are formed
    intro f' hf'
    rcases index_ok hr with ⟨hnone, rfl⟩ | ⟨ids, -, -, rfl⟩
    · -- the single function has now one index for every axis
      obtain ⟨f, hf, rfl⟩ := List.mem_map.mp hf'
      obtain ⟨g, hg, -, hgshape⟩ := h.single hnone his.shape_ne_nil
      have hfg : f = g := by
        rw [hg] at hf
        exact List.mem_singleton.mp hf
      have hformed := h.formed f hf
      refine ⟨hformed.function, hformed.gdim, .inr ?_⟩
      show is.length = f.function.shape.length
      rw [his.length, hfg, hgshape]
    · obtain ⟨f, hf, rfl⟩ := List.mem_map.mp hf'
      exact (h.formed f hf).fillSlots ids is
  · -- every index ranges over one dimension
    intro x hx y hy hid
    rcases hmem.mp hx with ⟨hx, hxaxes⟩ | hx <;> rcases hmem.mp hy with ⟨hy, hyaxes⟩ | hy
    · exact h.consistent x hx y hy hid
    · exact absurd hid (hapart x y hx hxaxes hy)
    · exact absurd hid.symm (hapart y x hy hyaxes hx)
    · exact (Signature.sorted_indexedFree his.distinct).eq_of_id
        (Signature.mem_indexedFree.mpr hx) (Signature.mem_indexedFree.mpr hy) hid
  · -- every free index occurs
    intro x hx
    rcases (hfree x).mp hx with hx | hx
    · exact hmem.mpr (.inl ⟨h.occurs x hx, h.not_mem_axes hx⟩)
    · exact hmem.mpr (.inr hx)
  · -- what occurs was known before, or has been put in
    intro x hx
    rcases hmem.mp hx with ⟨hx, haxes⟩ | hx
    · rcases h.known x hx with hknown | hknown | hknown
      · exact .inl (FreeIndices.has_of_mem ((hfree x).mpr (.inl (h.mem_free hx hknown))))
      · exact .inr (.inl hknown)
      · exact absurd hknown haxes
    · exact .inl (FreeIndices.has_of_mem ((hfree x).mpr (.inr hx)))
  · rw [hslots] at hids
    cases hids

variable [Scalar R] {M : Model R A}

/-- The term of an indexed monomial is that of the monomial at the indexed component. -/
theorem term_index (h : m.Within gdim s) {is : List Index} (his : Indexes is s)
    (hr : m.index is = .ok m') (Δ : M.Differential) (σ : Env) :
    m'.term Δ [] σ = m.term Δ (is.map σ.resolve) σ := by
  rcases index_ok hr with ⟨hnone, rfl⟩ | ⟨ids, hids, -, rfl⟩
  · -- the component of a single function is what it is indexed by
    obtain ⟨f, hf, hcomponents, -⟩ := h.single hnone his.shape_ne_nil
    rw [term_of_none Δ rfl, term_of_none Δ hnone, hf]
    have hne : is.isEmpty = false := by
      rw [List.isEmpty_eq_false_iff]
      exact his.nonempty
    simp only [List.map_cons, List.map_nil, Factor.value, hcomponents, hne]
    rfl
  · -- slots are filled in every factor
    have hl : ids.length = is.length := (h.slots ids hids).2.1.trans his.length.symm
    rw [term_of_none Δ rfl, term_of_some Δ hids]
    simp only [List.map_map]
    refine congrArg (M.number m.coefficient * List.prod ·) (List.map_congr_left fun f hf => ?_)
    exact (h.formed f hf).value_fillSlots Δ hl σ

/-- **An indexed monomial** has the value of the monomial at the indexed component. -/
theorem value_index (h : m.Within gdim s) {is : List Index} (his : Indexes is s)
    (hr : m.index is = .ok m') {free : FreeIndices}
    (hfree : ∀ x, x ∈ free ↔ x ∈ s.free ∨ (Index.free x.id, x.dim) ∈ is.zip s.shape)
    (Δ : M.Differential) (σ : Env) :
    m'.value Δ free [] σ = m.value Δ s.free (is.map σ.resolve) σ := by
  have hmem := fun {x : FreeIndex} => mem_places_index (x := x) h his hr
  have haxes' : m'.axes = [] := by
    rcases index_ok hr with ⟨-, rfl⟩ | ⟨ids, -, -, rfl⟩ <;> rfl
  have hhidden : ∀ x, x ∈ m.hidden s.free ↔
      x ∈ m'.places ∧ free.has x.id = false ∧ x.id ∉ m'.axes := by
    refine h.mem_hidden_of_introduced hfree (fun x => ?_) fun x hx => (his.fresh_of_zip hx).2
    rw [hmem, haxes']
    exact and_iff_left List.not_mem_nil
  rw [value_eq_sumOver Δ (h.consistent.nodup_hidden s.free) hhidden]
  refine Env.sumOver_congr fun τ hτ => ?_
  -- the summation leaves the indices put in where they are
  rw [term_index h his hr, h.map_resolve his.unsummed hτ]

/-! ## Component tensors -/

omit [CommRing A] [Scalar R] in
/-- Slots are opened where there are none. -/
theorem openSlots_ok {ids : List IndexId} (hr : m.openSlots ids = .ok m') :
    m.slots = none ∧ m' = { m with slots := some ids } := by
  unfold openSlots at hr
  split at hr
  · next hnone =>
    cases hr
    exact ⟨hnone, rfl⟩
  · cases hr

/-- Free indices that become axes of a shape: at least one, each once. -/
structure Binds (ids : List IndexId) (shape : List Nat) (s : Scope) : Prop where
  nonempty : ids ≠ []
  length : ids.length = shape.length
  nodup : ids.Nodup
  free : ∀ i d, (i, d) ∈ ids.zip shape → (⟨i, d⟩ : FreeIndex) ∈ s.free

/-- An index that is bound is free before. -/
theorem Binds.has {ids : List IndexId} {shape : List Nat} {i : IndexId} (h : Binds ids shape s)
    (hi : i ∈ ids) : s.free.has i := by
  have hfst : (ids.zip shape).map Prod.fst = ids := List.map_fst_zip (Nat.le_of_eq h.length)
  rw [← hfst] at hi
  obtain ⟨⟨j, d⟩, hmem, rfl⟩ := List.mem_map.mp hi
  exact FreeIndices.has_iff.mpr ⟨d, h.free j d hmem⟩

omit [Scalar R] in
/-- A monomial with opened slots is within the scope of the component tensor. -/
theorem Within.openSlots (h : m.Within gdim s) {ids : List IndexId} {shape : List Nat}
    (hids : Binds ids shape s) (hr : m.openSlots ids = .ok m') {free : FreeIndices}
    (hfree : ∀ x, x ∈ free ↔ x ∈ s.free ∧ x.id ∉ ids) :
    m'.Within gdim ⟨shape, free, s.summed, ids⟩ := by
  obtain ⟨hnone, rfl⟩ := openSlots_ok hr
  refine ⟨h.formed, h.consistent, fun x hx => h.occurs x ((hfree x).mp hx).1, fun x hx => ?_,
    fun hnone => (nomatch hnone), fun ids' hids' => ?_⟩
  · rcases h.known x hx with hknown | hknown | hknown
    · -- a free index becomes a slot or stays free
      by_cases hmem : x.id ∈ ids
      · exact .inr (.inr hmem)
      · exact .inl (FreeIndices.has_of_mem ((hfree x).mpr ⟨h.mem_free hx hknown, hmem⟩))
    · exact .inr (.inl hknown)
    · -- before, there were no slots
      rw [axes_of_none hnone] at hknown
      cases hknown
  · -- the slots are those that are opened
    cases hids'
    refine ⟨hids.nonempty, hids.length, hids.nodup, fun i hi => ⟨?_, hi⟩, fun i d hd =>
      h.occurs _ (hids.free i d hd)⟩
    exact FreeIndices.not_has_iff.mpr fun d hd => ((hfree _).mp hd).2 hi

/-- **Open slots** stand for the component. -/
theorem value_openSlots (h : m.Within gdim s) {ids : List IndexId} {shape : List Nat}
    (hids : Binds ids shape s) (hr : m.openSlots ids = .ok m') {free : FreeIndices}
    (hfree : ∀ x, x ∈ free ↔ x ∈ s.free ∧ x.id ∉ ids) (Δ : M.Differential) (c : List Nat)
    (σ : Env) : m'.value Δ free c σ = m.value Δ s.free [] (σ.bind ids c) := by
  obtain ⟨hnone, rfl⟩ := openSlots_ok hr
  -- the slots are not summed over before they are bound
  have hhidden : ∀ x, x ∈ m.hidden s.free ↔
      x ∈ m.places ∧ free.has x.id = false ∧ x.id ∉ ids := by
    intro x
    rw [mem_hidden, axes_of_none hnone]
    constructor
    -- what is hidden was neither free nor a slot
    · rintro ⟨hx, hnot, -⟩
      refine ⟨hx, FreeIndices.not_has_mono hnot fun d hd => ((hfree _).mp hd).1, fun hmem => ?_⟩
      rw [hids.has hmem] at hnot
      cases hnot
    -- and what is hidden in the tensor was hidden before
    · rintro ⟨hx, hnot, hmem⟩
      have hnot' := FreeIndices.not_has_mono hnot fun d hd => (hfree _).mpr ⟨hd, hmem⟩
      exact ⟨hx, hnot', List.not_mem_nil⟩
  rw [value_eq_sumOver (m := { m with slots := some ids }) Δ
    (h.consistent.nodup_hidden s.free) hhidden, value,
    Env.sumOver_bind fun x hx => ((hhidden x).mp hx).2.2]
  refine Env.sumOver_congr fun τ _ => ?_
  rw [term_of_some (m := { m with slots := some ids }) Δ rfl, term_of_none Δ hnone]

/-! ## Index sums -/

omit [CommRing A] [Scalar R] in
/-- A monomial is within the scope of an index sum. -/
theorem Within.sumOver (h : m.Within gdim s) (i : IndexId) {free : FreeIndices}
    (hfree : ∀ x, x ∈ free ↔ x ∈ s.free ∧ x.id ≠ i) :
    m.Within gdim ⟨s.shape, free, i :: s.summed, s.opened⟩ := by
  refine ⟨h.formed, h.consistent, fun x hx => h.occurs x ((hfree x).mp hx).1, fun x hx => ?_,
    h.single, fun ids hids => ?_⟩
  · rcases h.known x hx with hknown | hknown | hknown
    · -- the index of the sum was free, and is summed over now
      by_cases hi : x.id = i
      · exact .inr (.inl (hi ▸ List.mem_cons_self))
      · exact .inl (FreeIndices.has_of_mem ((hfree x).mpr ⟨h.mem_free hx hknown, hi⟩))
    · exact .inr (.inl (List.mem_cons_of_mem i hknown))
    · exact .inr (.inr hknown)
  · obtain ⟨hne, hl, hnodup, hopen, hplaces⟩ := h.slots ids hids
    refine ⟨hne, hl, hnodup, fun k hk => ⟨?_, (hopen k hk).2⟩, hplaces⟩
    exact FreeIndices.not_has_mono (hopen k hk).1 fun d hd => ((hfree _).mp hd).1

/-- **An index sum** leaves a monomial as it is: the index is summed over since it is no
longer free. -/
theorem value_sumOver (h : m.Within gdim s) {i : IndexId} {d : Nat}
    (hi : (⟨i, d⟩ : FreeIndex) ∈ s.free) {free : FreeIndices}
    (hfree : ∀ x, x ∈ free ↔ x ∈ s.free ∧ x.id ≠ i) (Δ : M.Differential) (c : List Nat)
    (σ : Env) : m.value Δ free c σ =
      ∑ j ∈ Finset.range d, m.value Δ s.free c (σ.bind [i] [j]) := by
  have hhas : s.free.has i := FreeIndices.has_of_mem hi
  -- the index of the sum is not hidden while it is free
  have hnew : i ∉ (m.hidden s.free).map (·.id) := by
    intro hmem
    obtain ⟨x, hx, rfl⟩ := List.mem_map.mp hmem
    rw [(mem_hidden.mp hx).2.1] at hhas
    cases hhas
  have hhidden : ∀ x, x ∈ (⟨i, d⟩ : FreeIndex) :: m.hidden s.free ↔
      x ∈ m.places ∧ free.has x.id = false ∧ x.id ∉ m.axes := by
    intro x
    rw [List.mem_cons, mem_hidden]
    -- one more index is hidden than before
    constructor
    -- the index of the sum is hidden now
    · rintro (rfl | ⟨hx, hnot, haxes⟩)
      · refine ⟨h.occurs _ hi, ?_, h.not_mem_axes hi⟩
        exact FreeIndices.not_has_iff.mpr fun d' hd' => ((hfree _).mp hd').2 rfl
      · exact ⟨hx, FreeIndices.not_has_mono hnot fun d' hd' => ((hfree _).mp hd').1, haxes⟩
    -- anything else that is hidden was hidden before
    · rintro ⟨hx, hnot, haxes⟩
      by_cases hid : x.id = i
      · exact .inl (h.consistent x hx ⟨i, d⟩ (h.occurs _ hi) hid)
      · have hnot' := FreeIndices.not_has_mono hnot fun d' hd' => (hfree _).mpr ⟨hd', hid⟩
        exact .inr ⟨hx, hnot', haxes⟩
  have hnodup : (((⟨i, d⟩ : FreeIndex) :: m.hidden s.free).map (·.id)).Nodup :=
    List.nodup_cons.mpr ⟨hnew, h.consistent.nodup_hidden s.free⟩
  rw [value_eq_sumOver Δ hnodup hhidden, Env.sumOver_cons]
  rfl

/-! ## Derivatives -/

omit [CommRing A] [Scalar R] in
/-- A derivative is taken of a single factor, which gets the new directions. -/
theorem derivative_ok {is : List Index} (hr : m.derivative is = .ok m') : ∃ f, m.factors = [f] ∧
    m' = { m with factors := [{ f with derivatives := f.derivatives ++ is }] } := by
  unfold derivative at hr
  split at hr
  · next f hf =>
    cases hr
    exact ⟨f, hf, rfl⟩
  · cases hr

/-- Directions of a derivative that are new to its operand, also inside. -/
structure Directs (is : List Index) (s : Scope) : Prop where
  fresh : ∀ i, .free i ∈ is → s.free.has i = false
  unsummed : ∀ i, .free i ∈ is → i ∉ s.summed
  unopened : ∀ i, .free i ∈ is → i ∉ s.opened

omit [CommRing A] [Scalar R] in
/-- The indices of a derivative: those of its operand, and the directions. -/
theorem mem_places_derivative (h : ∀ f ∈ m.factors, f.function.signature.gdim = gdim)
    {is : List Index} (hr : m.derivative is = .ok m') {x : FreeIndex} :
    x ∈ m'.places ↔ x ∈ m.places ∨ (Index.free x.id ∈ is ∧ x.dim = gdim) := by
  obtain ⟨f, hf, rfl⟩ := derivative_ok hr
  have hgdim : f.function.signature.gdim = gdim :=
    h f (by rw [hf]; exact List.mem_singleton.mpr rfl)
  rw [mem_places, mem_places, hf]
  simp only [List.mem_singleton, exists_eq_left]
  rw [Factor.mem_places, Factor.mem_places]
  simp only [List.mem_append, hgdim]
  rw [or_and_right, or_assoc]

omit [CommRing A] [Scalar R] in
/-- A monomial with a derivative is within the scope of the derivative. -/
theorem Within.derivative (h : m.Within gdim s) {is : List Index} (his : Directs is s)
    (hr : m.derivative is = .ok m') {free : FreeIndices}
    (hfree : ∀ x, x ∈ free ↔ x ∈ s.free ∨ (Index.free x.id ∈ is ∧ x.dim = gdim)) :
    m'.Within gdim ⟨s.shape, free, s.summed, s.opened⟩ := by
  have hmem := fun {x : FreeIndex} =>
    mem_places_derivative (x := x) (fun f hf => (h.formed f hf).gdim) hr
  -- a direction is not among the indices of the operand
  have hapart : ∀ x y : FreeIndex, x ∈ m.places → Index.free y.id ∈ is → x.id ≠ y.id := by
    intro x y hx hy hid
    rcases h.known x hx with hknown | hknown | hknown
    · rw [hid, his.fresh y.id hy] at hknown
      cases hknown
    · exact his.unsummed y.id hy (hid ▸ hknown)
    · exact his.unopened y.id hy (hid ▸ (h.of_mem_axes hknown).2)
  obtain ⟨f, hf, heq⟩ := derivative_ok hr
  have hslots : m'.slots = m.slots := by rw [heq]
  have haxes : m'.axes = m.axes := by rw [axes, axes, hslots]
  refine ⟨fun f' hf' => ?_, ?_, fun x hx => ?_, fun x hx => ?_, fun hnone hne => ?_,
    fun ids hids => ?_⟩
  · -- the only factor keeps its function and its components
    rw [heq] at hf'
    obtain rfl := List.mem_singleton.mp hf'
    have hformed := h.formed f (by rw [hf]; exact List.mem_singleton.mpr rfl)
    exact ⟨hformed.function, hformed.gdim, hformed.components⟩
  · -- every index ranges over one dimension
    intro x hx y hy hid
    rcases hmem.mp hx with hx | ⟨hx, hxdim⟩ <;> rcases hmem.mp hy with hy | ⟨hy, hydim⟩
    · exact h.consistent x hx y hy hid
    · exact absurd hid (hapart x y hx hy)
    · exact absurd hid.symm (hapart y x hy hx)
    · exact FreeIndex.eq_of_id_of_dim hid (hxdim.trans hydim.symm)
  -- what was free occurs as before, and so do the new directions
  · exact hmem.mpr (((hfree x).mp hx).imp_left (h.occurs x))
  · rw [haxes]
    rcases hmem.mp hx with hx | hx
    · refine (h.known x hx).imp_left fun hknown => FreeIndices.has_of_mem ?_
      exact (hfree x).mpr (.inl (h.mem_free hx hknown))
    · exact .inl (FreeIndices.has_of_mem ((hfree x).mpr (.inr hx)))
  · -- a function that is not indexed yet
    rw [hslots] at hnone
    obtain ⟨g, hg, hcomponents, hshape⟩ := h.single hnone hne
    obtain rfl : f = g := List.head_eq_of_cons_eq (hf.symm.trans hg)
    exact ⟨{ f with derivatives := f.derivatives ++ is }, by rw [heq], hcomponents, hshape⟩
  · -- the slots are none of the directions
    rw [hslots] at hids
    obtain ⟨hne, hl, hnodup, hopen, hplaces⟩ := h.slots ids hids
    refine ⟨hne, hl, hnodup, fun i hi => ⟨?_, (hopen i hi).2⟩, fun i d hd =>
      hmem.mpr (.inl (hplaces i d hd))⟩
    have hnot := (hopen i hi).1
    rw [FreeIndices.not_has_iff] at hnot ⊢
    intro d hd
    rcases (hfree _).mp hd with hd | ⟨hd, -⟩
    · exact hnot d hd
    · exact his.unopened i hd (hopen i hi).2

/-- **A derivative** goes to the only factor. -/
theorem value_derivative (h : m.Within gdim s) {is : List Index} (his : Directs is s)
    (hr : m.derivative is = .ok m') {free : FreeIndices}
    (hfree : ∀ x, x ∈ free ↔ x ∈ s.free ∨ (Index.free x.id ∈ is ∧ x.dim = gdim))
    (Δ : M.Differential) (c : List Nat) (σ : Env) :
    m'.value Δ free c σ = Δ.derive (is.map σ.resolve) (m.value Δ s.free c σ) := by
  have hmem := fun {x : FreeIndex} =>
    mem_places_derivative (x := x) (fun f hf => (h.formed f hf).gdim) hr
  obtain ⟨f, hf, heq⟩ := derivative_ok hr
  have hslots : m'.slots = m.slots := by rw [heq]
  have haxes : m'.axes = m.axes := by rw [axes, axes, hslots]
  -- what is summed over did not change, since the directions are free
  have hhidden : ∀ x, x ∈ m.hidden s.free ↔
      x ∈ m'.places ∧ free.has x.id = false ∧ x.id ∉ m'.axes := by
    refine h.mem_hidden_of_introduced hfree (fun x => ?_) fun x hx => his.unsummed x.id hx.1
    rw [hmem, haxes, or_and_right]
    refine or_congr_right (and_iff_left_of_imp fun hx hslot => ?_)
    exact his.unopened x.id hx.1 (h.of_mem_axes hslot).2
  rw [value_eq_sumOver Δ (h.consistent.nodup_hidden s.free) hhidden, value, Env.map_sumOver]
  refine Env.sumOver_congr fun τ hτ => ?_
  -- neither the component nor the summation moves a direction
  have hresolve : is.map (τ.bind m.axes c).resolve = is.map σ.resolve := by
    rw [← h.map_resolve his.unsummed hτ]
    refine List.map_congr_left fun j hj => ?_
    cases j with
    | fixed p => rfl
    | free i => exact Env.bind_of_not_mem fun hi => his.unopened i hj (h.of_mem_axes hi).2
  rw [term, term, haxes, hslots, heq, hf, Δ.derive_number_mul]
  simp only [List.map_cons, List.map_nil, List.prod_cons, List.prod_nil, mul_one]
  simp only [Factor.value, List.map_append, Δ.derive_append, Δ.derive_onSide, hresolve]

/-! ## Restrictions -/

/-- The factor on a side. -/
def onSide (side : Side) (f : Factor R) : Factor R :=
  { f with restriction := some side }

omit [CommRing A] [Scalar R] in
/-- A restricted monomial has no factor that was restricted before. -/
theorem restrict_ok {side : Side} (hr : m.restrict side = .ok m') :
    (∀ f ∈ m.factors, f.restriction = none) ∧
      m' = { m with factors := m.factors.map (onSide side) } := by
  obtain ⟨fs, hfs, hr⟩ := bind_eq_ok.mp hr
  cases hr
  -- one factor
  have hrestrict : ∀ {f f' : Factor R}, f.restrict side = .ok f' →
      f.restriction = none ∧ f' = onSide side f := by
    intro f f' hf
    unfold Factor.restrict at hf
    split at hf
    · next hnone =>
      cases hf
      exact ⟨hnone, rfl⟩
    · cases hf
  have hfs := mapM_eq_ok.mp hfs
  refine ⟨fun f hf => ?_, by rw [eq_map_of_forall₂ hfs fun f f' hf => (hrestrict hf).2]⟩
  obtain ⟨k, hk⟩ := List.mem_iff_getElem?.mp hf
  obtain ⟨f', -, hf'⟩ := exists_right_of_getElem? hfs hk
  exact (hrestrict hf').1

omit [CommRing A] [Scalar R] in
/-- A restriction keeps the places. -/
theorem places_restrict {side : Side} (hr : m.restrict side = .ok m') : m'.places = m.places := by
  obtain ⟨-, rfl⟩ := restrict_ok hr
  rw [places, places, List.flatMap_map]
  rfl

omit [CommRing A] [Scalar R] in
/-- A restriction keeps a monomial in its scope. -/
theorem Within.restrict (h : m.Within gdim s) {side : Side} (hr : m.restrict side = .ok m') :
    m'.Within gdim s := by
  have hplaces := places_restrict hr
  obtain ⟨-, rfl⟩ := restrict_ok hr
  refine ⟨fun f' hf' => ?_, ?_, fun x hx => ?_, fun x hx => ?_, fun hnone hne => ?_,
    fun ids hids => ?_⟩
  · obtain ⟨f, hf, rfl⟩ := List.mem_map.mp hf'
    have hformed := h.formed f hf
    -- a restriction changes neither the places of a factor nor its function
    exact ⟨hformed.function, hformed.gdim, hformed.components⟩
  · rw [Consistent, hplaces]
    exact h.consistent
  · rw [hplaces]
    exact h.occurs x hx
  · rw [hplaces] at hx
    exact h.known x hx
  · obtain ⟨f, hf, hcomponents, hshape⟩ := h.single hnone hne
    exact ⟨onSide side f, by rw [hf]; rfl, hcomponents, hshape⟩
  · rw [hplaces]
    exact h.slots ids hids

/-- **A restriction** goes to every factor. -/
theorem value_restrict {side : Side} (hr : m.restrict side = .ok m') (free : FreeIndices)
    (Δ : M.Differential) (c : List Nat) (σ : Env) :
    m'.value Δ free c σ = Δ.side side (m.value Δ free c σ) := by
  -- a restriction hides no more indices
  have hhidden : m'.hidden free = m.hidden free := by
    have haxes : m'.axes = m.axes := by
      obtain ⟨-, rfl⟩ := restrict_ok hr
      rfl
    rw [hidden, hidden, haxes, places_restrict hr]
  obtain ⟨hnone, rfl⟩ := restrict_ok hr
  rw [value, value, hhidden]
  refine Eq.trans (Env.sumOver_congr fun τ _ => ?_)
    (Env.map_sumOver (Δ.side side).toAddMonoidHom _ _ σ).symm
  -- a homomorphism goes to every factor, and leaves the coefficient as it is
  rw [RingHom.toAddMonoidHom_eq_coe, AddMonoidHom.coe_coe, term, term, map_mul, Δ.side_number,
    map_list_prod, List.map_map, List.map_map]
  refine congrArg (M.number m.coefficient * List.prod ·) (List.map_congr_left fun f hf => ?_)
  show Δ.side side _ = Δ.side side (Factor.value Δ f _ _)
  rw [Factor.value, hnone f hf]
  rfl

end Monomial

end WeakForm
