import Mathlib.Algebra.BigOperators.Ring.List
import WeakForm.Proofs.MonomialIndexing

/-!
# Arithmetic of monomials

A sum of monomials denotes values if each of its monomials fits the scope of the expression
and their values add up. Sums and products of sums denote the sums and products of what they
denote; a product does where no index that is summed over in one factor occurs in the other,
and a power where nothing is summed over in its base.

* `MonomialSum.Denotes` — what a sum of monomials stands for;
* `Denotes.add`, `Denotes.mul`, `Denotes.pow` — arithmetic;
* `Denotes.mapM` — an operator that is applied to every monomial;
* `Denotes.sumOver` — index sums.
-/

namespace WeakForm

variable {R A : Type} [Scalar R] [CommRing A] {M : Model R A} {Δ : M.Differential} {gdim : Nat}

/-- The monomials fit the scope, and their values add up to the values `g`. -/
structure MonomialSum.Denotes (Δ : M.Differential) (gdim : Nat) (ms : MonomialSum R) (s : Scope)
    (g : List Nat → Env → A) : Prop where
  within : ∀ m ∈ ms, m.Within gdim s
  value : ∀ c σ, c.length = s.shape.length → g c σ = ms.value Δ s.free c σ

/-! ## Products of monomials -/

/-- The scope of a product of factors with the scopes `s` and `t`, of which one is scalar and
no index that is summed over in one occurs in the other. -/
structure Scope.Multiplies (s t u : Scope) : Prop where
  shape : (s.shape = [] ∧ u.shape = t.shape) ∨ (t.shape = [] ∧ u.shape = s.shape)
  free : ∀ x, x ∈ u.free ↔ x ∈ s.free ∨ x ∈ t.free
  compatible : FreeIndices.Compatible s.free t.free
  summed : ∀ i, i ∈ s.summed ∨ i ∈ t.summed → i ∈ u.summed
  left : ∀ i ∈ s.summed, t.free.has i = false ∧ i ∉ t.summed
  right : ∀ i ∈ t.summed, s.free.has i = false

/-- Monomials that are multiplied component by component: both are scalar, or one of them is
a number. -/
structure Monomial.Multiplies (m n : Monomial R) (s t : Scope) : Prop where
  left : m.slots = none
  right : n.slots = none
  scalar : (s.shape = [] ∧ t.shape = []) ∨ m.factors = [] ∨ n.factors = []

/-- A product of scalars is scalar. -/
theorem Scope.Multiplies.shape_scalar {s t u : Scope} (hu : s.Multiplies t u)
    (hs : s.shape = []) (ht : t.shape = []) : u.shape = [] := by
  rcases hu.shape with ⟨-, hshape⟩ | ⟨-, hshape⟩
  · rw [hshape, ht]
  · rw [hshape, hs]

namespace Monomial

variable {m n : Monomial R} {s t u : Scope}

/-- The places of a product are those of both factors. -/
theorem mem_places_mul {x : FreeIndex} : x ∈ (m.mul n).places ↔ x ∈ m.places ∨ x ∈ n.places := by
  show x ∈ (m.factors ++ n.factors).flatMap Factor.places ↔ _
  rw [List.flatMap_append, List.mem_append]
  rfl

omit [Scalar R] in
/-- A number is scalar. -/
theorem Within.shape_of_number (h : m.Within gdim s) (hslots : m.slots = none)
    (hfactors : m.factors = []) : s.shape = [] := by
  by_contra hne
  obtain ⟨f, hf, -⟩ := h.single hslots hne
  rw [hfactors] at hf
  cases hf

omit [Scalar R] in
/-- A product with a number on the left has the shape of the right factor. -/
theorem Within.shape_mul_left (hm : m.Within gdim s) (hslots : m.slots = none)
    (hfactors : m.factors = []) (hu : s.Multiplies t u) : u.shape = t.shape := by
  have hs := hm.shape_of_number hslots hfactors
  rcases hu.shape with ⟨-, hshape⟩ | ⟨ht, hshape⟩
  · exact hshape
  · rw [hshape, hs, ht]

omit [Scalar R] in
/-- Multiplying with a number keeps the shape. -/
theorem Within.shape_mul_right (hn : n.Within gdim t) (hslots : n.slots = none)
    (hfactors : n.factors = []) (hu : s.Multiplies t u) : u.shape = s.shape := by
  have ht := hn.shape_of_number hslots hfactors
  rcases hu.shape with ⟨hs, hshape⟩ | ⟨-, hshape⟩
  · rw [hshape, hs, ht]
  · exact hshape

omit [Scalar R] in
/-- A number has no open slots: a slot occurs in some factor. -/
theorem Within.slots_of_number (h : m.Within gdim s) (hfactors : m.factors = []) :
    m.slots = none := by
  cases hids : m.slots with
  | none => rfl
  -- slots have places, and a number has none
  | some ids =>
    obtain ⟨hne, hl, -, -, hplaces⟩ := h.slots ids hids
    obtain ⟨i, ids', rfl⟩ := List.exists_cons_of_ne_nil hne
    cases hshape : s.shape with
    | nil =>
      rw [hshape] at hl
      cases hl
    | cons d dims =>
      rw [hshape] at hplaces
      have hplace := hplaces i d List.mem_cons_self
      rw [places, hfactors] at hplace
      cases hplace

omit [Scalar R] in
/-- Where no slots are open, a monomial has none. -/
theorem Within.slots_of_unopened (h : m.Within gdim s) (hopened : s.opened = []) :
    m.slots = none := by
  cases hids : m.slots with
  | none => rfl
  | some ids =>
    obtain ⟨hne, -, -, hopen, -⟩ := h.slots ids hids
    obtain ⟨i, ids', rfl⟩ := List.exists_cons_of_ne_nil hne
    have hmem := (hopen i List.mem_cons_self).2
    rw [hopened] at hmem
    cases hmem

omit [Scalar R] in
/-- An index of the left factor is free in it or summed over in it. -/
theorem Within.known_of_none (h : m.Within gdim s) (hslots : m.slots = none) {x : FreeIndex}
    (hx : x ∈ m.places) : s.free.has x.id ∨ x.id ∈ s.summed := by
  rcases h.known x hx with hknown | hknown | hknown
  · exact .inl hknown
  · exact .inr hknown
  · rw [axes_of_none hslots] at hknown
    cases hknown

omit [Scalar R] in
/-- What is summed over in the right factor does not occur in the left one. -/
theorem Within.not_summed_right (hm : m.Within gdim s) (hslots : m.slots = none)
    (hu : s.Multiplies t u) {x : FreeIndex} (hx : x ∈ m.places) : x.id ∉ t.summed := by
  intro hmem
  rcases hm.known_of_none hslots hx with hknown | hknown
  · rw [hu.right x.id hmem] at hknown
    cases hknown
  · exact (hu.left x.id hknown).2 hmem

omit [Scalar R] in
/-- What is summed over in the left factor does not occur in the right one. -/
theorem Within.not_summed_left (hn : n.Within gdim t) (hslots : n.slots = none)
    (hu : s.Multiplies t u) {x : FreeIndex} (hx : x ∈ n.places) : x.id ∉ s.summed := by
  intro hmem
  obtain ⟨hfree, hsummed⟩ := hu.left x.id hmem
  rcases hn.known_of_none hslots hx with hknown | hknown
  · rw [hfree] at hknown
    cases hknown
  · exact hsummed hknown

omit [Scalar R] in
/-- An index that occurs in both factors is free in both, and so ranges over one dimension. -/
theorem Within.eq_of_both (hm : m.Within gdim s) (hn : n.Within gdim t)
    (hmul : m.Multiplies n s t) (hu : s.Multiplies t u) {x y : FreeIndex} (hx : x ∈ m.places)
    (hy : y ∈ n.places) (hid : x.id = y.id) : x = y := by
  have hxs : s.free.has x.id := by
    refine (hm.known_of_none hmul.left hx).resolve_right fun hsummed => ?_
    exact hn.not_summed_left hmul.right hu hy (hid ▸ hsummed)
  have hyt : t.free.has y.id := by
    refine (hn.known_of_none hmul.right hy).resolve_right fun hsummed => ?_
    exact hm.not_summed_right hmul.left hu hx (hid ▸ hsummed)
  exact FreeIndex.eq_of_id_of_dim hid
    (hu.compatible x (hm.mem_free hx hxs) y (hn.mem_free hy hyt) hid)

/-- The product of monomials is within the scope of the product. -/
theorem Within.mul (hm : m.Within gdim s) (hn : n.Within gdim t) (hmul : m.Multiplies n s t)
    (hu : s.Multiplies t u) : (m.mul n).Within gdim u := by
  have hhas : ∀ x : FreeIndex, x ∈ s.free ∨ x ∈ t.free → u.free.has x.id := fun x hx =>
    FreeIndices.has_of_mem ((hu.free x).mpr hx)
  refine ⟨fun f hf => ?_, fun x hx y hy hid => ?_, fun x hx => ?_, fun x hx => ?_,
    fun _ hne => ?_, fun ids hids => nomatch hids⟩
  -- the factors of the product are those of both
  · exact (List.mem_append.mp hf).elim (hm.formed f) (hn.formed f)
  · -- an index of both factors ranges over one dimension
    rcases mem_places_mul.mp hx with hx | hx <;> rcases mem_places_mul.mp hy with hy | hy
    · exact hm.consistent x hx y hy hid
    · exact hm.eq_of_both hn hmul hu hx hy hid
    · exact (hm.eq_of_both hn hmul hu hy hx hid.symm).symm
    · exact hn.consistent x hx y hy hid
  · exact mem_places_mul.mpr (((hu.free x).mp hx).imp (hm.occurs x) (hn.occurs x))
  · -- what occurs is free in its factor, or summed over there
    rcases mem_places_mul.mp hx with hx | hx
    -- the index is one of the left factor
    · rcases hm.known_of_none hmul.left hx with hknown | hknown
      · exact .inl (hhas x (.inl (hm.mem_free hx hknown)))
      · exact .inr (.inl (hu.summed x.id (.inl hknown)))
    -- the index is one of the right factor
    · rcases hn.known_of_none hmul.right hx with hknown | hknown
      · exact .inl (hhas x (.inr (hn.mem_free hx hknown)))
      · exact .inr (.inl (hu.summed x.id (.inr hknown)))
  · -- a tensor is multiplied with a number only
    show ∃ f, m.factors ++ n.factors = [f] ∧ _
    rcases hmul.scalar with ⟨hs, ht⟩ | hfactors | hfactors
    · exact absurd (hu.shape_scalar hs ht) hne
    · rw [hm.shape_mul_left hmul.left hfactors hu] at hne ⊢
      rw [hfactors, List.nil_append]
      exact hn.single hmul.right hne
    · rw [hn.shape_mul_right hmul.right hfactors hu] at hne ⊢
      rw [hfactors, List.append_nil]
      exact hm.single hmul.left hne

/-- A term of the product is the product of the terms. -/
theorem term_mul (hM : M.Exact) (hm : m.Within gdim s) (hn : n.Within gdim t)
    (hmul : m.Multiplies n s t) (hu : s.Multiplies t u) {c : List Nat}
    (hc : c.length = u.shape.length) (σ : Env) : (m.mul n).term Δ c σ =
      m.term Δ (c.take s.shape.length) σ * n.term Δ (c.take t.shape.length) σ := by
  -- a factor that is no number has the shape of the product, and so its component
  have htake : ∀ {p : Monomial R} {shape : List Nat}, p.factors = [] ∨ u.shape = shape →
      (p.factors.map fun f => f.value Δ c σ).prod =
        (p.factors.map fun f => f.value Δ (c.take shape.length) σ).prod := by
    rintro p shape (hnumber | hshape)
    · rw [hnumber]
      rfl
    · rw [← hshape, ← hc, List.take_length]
  -- at most one of the two is a tensor
  have hshapes : (m.factors = [] ∨ u.shape = s.shape) ∧ (n.factors = [] ∨ u.shape = t.shape) := by
    rcases hmul.scalar with ⟨hs, ht⟩ | hnumber | hnumber
    · rw [hu.shape_scalar hs ht, hs, ht]
      exact ⟨.inr rfl, .inr rfl⟩
    · exact ⟨.inl hnumber, .inr (hm.shape_mul_left hmul.left hnumber hu)⟩
    · exact ⟨.inr (hn.shape_mul_right hmul.right hnumber hu), .inl hnumber⟩
  have hprod : (m.mul n).term Δ c σ = M.number (Scalar.mul m.coefficient n.coefficient) *
      ((m.factors ++ n.factors).map fun f => f.value Δ c σ).prod := term_of_none Δ rfl c σ
  rw [hprod, term_of_none Δ hmul.left, term_of_none Δ hmul.right, hM.mul, List.map_append,
    List.prod_append, htake hshapes.1, htake hshapes.2]
  ring

/-- **A product of monomials** has the product of their values. -/
theorem value_mul (hM : M.Exact) (hm : m.Within gdim s) (hn : n.Within gdim t)
    (hmul : m.Multiplies n s t) (hu : s.Multiplies t u) {c : List Nat}
    (hc : c.length = u.shape.length) (σ : Env) : (m.mul n).value Δ u.free c σ =
      m.value Δ s.free (c.take s.shape.length) σ * n.value Δ t.free (c.take t.shape.length) σ := by
  -- what the product sums over is what both factors sum over, each index once
  have hnodup : ((m.hidden s.free ++ n.hidden t.free).map (·.id)).Nodup := by
    rw [List.map_append]
    refine List.Nodup.append (hm.consistent.nodup_hidden _) (hn.consistent.nodup_hidden _) ?_
    intro i hi hi'
    obtain ⟨x, hx, rfl⟩ := List.mem_map.mp hi
    obtain ⟨y, hy, hid⟩ := List.mem_map.mp hi'
    exact (hu.left x.id (hm.mem_summed hx)).2 (hid ▸ hn.mem_summed hy)
  -- an index is free in the product where it is free in a factor
  have hnot : ∀ x : FreeIndex, u.free.has x.id = false ↔
      s.free.has x.id = false ∧ t.free.has x.id = false := by
    intro x
    simp only [FreeIndices.not_has_iff, hu.free]
    exact ⟨fun h => ⟨fun d hd => h d (.inl hd), fun d hd => h d (.inr hd)⟩,
      fun h d hd => hd.elim (h.1 d) (h.2 d)⟩
  have hhidden : ∀ x, x ∈ m.hidden s.free ++ n.hidden t.free ↔
      x ∈ (m.mul n).places ∧ u.free.has x.id = false ∧ x.id ∉ (m.mul n).axes := by
    intro x
    have haxes : (m.mul n).axes = [] := rfl
    rw [List.mem_append, mem_places_mul, hnot, haxes]
    constructor
    -- what a factor sums over stays summed over
    · rintro (hx | hx)
      · obtain ⟨hplace, hfree, -⟩ := mem_hidden.mp hx
        exact ⟨.inl hplace, ⟨hfree, (hu.left x.id (hm.mem_summed hx)).1⟩, List.not_mem_nil⟩
      · obtain ⟨hplace, hfree, -⟩ := mem_hidden.mp hx
        exact ⟨.inr hplace, ⟨hu.right x.id (hn.mem_summed hx), hfree⟩, List.not_mem_nil⟩
    -- and every index that is summed over belongs to a factor
    · rintro ⟨hplace, ⟨hs, ht⟩, -⟩
      rcases hplace with hplace | hplace
      · refine .inl (mem_hidden.mpr ⟨hplace, hs, ?_⟩)
        rw [axes_of_none hmul.left]
        exact List.not_mem_nil
      · refine .inr (mem_hidden.mpr ⟨hplace, ht, ?_⟩)
        rw [axes_of_none hmul.right]
        exact List.not_mem_nil
  -- neither factor reads what the other one sums over
  have hleft : ∀ y ∈ n.hidden t.free, ¬∃ x ∈ m.places, x.id = y.id := by
    rintro y hy ⟨x, hx, hid⟩
    exact hm.not_summed_right hmul.left hu hx (hid ▸ hn.mem_summed hy)
  have hright : ∀ x ∈ m.hidden s.free, ¬∃ y ∈ n.places, y.id = x.id := by
    rintro x hx ⟨y, hy, hid⟩
    exact hn.not_summed_left hmul.right hu hy (hid ▸ hm.mem_summed hx)
  rw [value_eq_sumOver Δ hnodup hhidden, value, value,
    Env.sumOver_mul (reads_term Δ hm.formed _) (reads_term Δ hn.formed _) hleft hright]
  exact Env.sumOver_congr fun τ _ => term_mul hM hm hn hmul hu hc τ

end Monomial

/-! ## Sums of monomials -/

namespace MonomialSum

variable {ms ns ms' : MonomialSum R} {s s' t u : Scope} {g h : List Nat → Env → A}

/-- A sum of sums has the sum of the values. -/
theorem value_append (ms ns : MonomialSum R) (free : FreeIndices) (c : List Nat) (σ : Env) :
    MonomialSum.value Δ (ms ++ ns) free c σ =
      MonomialSum.value Δ ms free c σ + MonomialSum.value Δ ns free c σ := by
  rw [value, value, value, List.map_append, List.sum_append]

/-- Both summands have the shape and the free indices of the sum. -/
theorem Denotes.add (hms : Denotes Δ gdim ms s g) (hns : Denotes Δ gdim ns t h)
    (hs : u.shape = s.shape ∧ u.free = s.free) (ht : u.shape = t.shape ∧ u.free = t.free)
    (hsummed : s.summed ⊆ u.summed ∧ t.summed ⊆ u.summed)
    (hopened : s.opened ⊆ u.opened ∧ t.opened ⊆ u.opened) :
    Denotes Δ gdim (ms.add ns) u fun c σ => g c σ + h c σ := by
  refine ⟨fun m hm => ?_, fun c σ hc => ?_⟩
  · rcases List.mem_append.mp hm with hm | hm
    · exact (hms.within m hm).mono hs.1 hs.2 hsummed.1 hopened.1
    · exact (hns.within m hm).mono ht.1 ht.2 hsummed.2 hopened.2
  · have hvalue : MonomialSum.value Δ (ms.add ns) u.free c σ =
        MonomialSum.value Δ ms s.free c σ + MonomialSum.value Δ ns t.free c σ := by
      rw [← hs.2, ← ht.2]
      exact value_append ms ns u.free c σ
    rw [hms.value c σ (hs.1 ▸ hc), hns.value c σ (ht.1 ▸ hc), hvalue]

/-- The products of all monomials of two sums. -/
theorem Denotes.mul (hM : M.Exact) (hms : Denotes Δ gdim ms s g) (hns : Denotes Δ gdim ns t h)
    (hmul : ∀ m ∈ ms, ∀ n ∈ ns, m.Multiplies n s t) (hu : s.Multiplies t u) :
    Denotes Δ gdim (ms.mul ns) u fun c σ =>
      g (c.take s.shape.length) σ * h (c.take t.shape.length) σ := by
  refine ⟨fun p hp => ?_, fun c σ hc => ?_⟩
  -- a monomial of the product is one of the left times one of the right
  · obtain ⟨m, hm, hp⟩ := List.mem_flatMap.mp hp
    obtain ⟨n, hn, rfl⟩ := List.mem_map.mp hp
    exact (hms.within m hm).mul (hns.within n hn) (hmul m hm n hn) hu
  -- the component of a factor has the rank of the factor
  · have htake : (c.take s.shape.length).length = s.shape.length ∧
        (c.take t.shape.length).length = t.shape.length := by
      rw [List.length_take, List.length_take, hc]
      rcases hu.shape with ⟨hs, hshape⟩ | ⟨ht, hshape⟩
      · rw [hs, hshape]
        exact ⟨Nat.zero_min _, Nat.min_self _⟩
      · rw [ht, hshape]
        exact ⟨Nat.min_self _, Nat.zero_min _⟩
    rw [hms.value _ σ htake.1, hns.value _ σ htake.2]
    have hwithin := hms.within
    clear hms htake
    -- distributivity, one monomial of the left sum after the other
    induction ms with
    | nil => exact zero_mul _
    | cons m ms ih =>
      have ih := ih (fun m' hm' => hmul m' (List.mem_cons_of_mem m hm'))
        fun m' hm' => hwithin m' (List.mem_cons_of_mem m hm')
      have hm := hwithin m List.mem_cons_self
      have hrow : MonomialSum.value Δ (ns.map m.mul) u.free c σ =
          m.value Δ s.free (c.take s.shape.length) σ *
            MonomialSum.value Δ ns t.free (c.take t.shape.length) σ := by
        rw [MonomialSum.value, MonomialSum.value, List.map_map, ← List.sum_map_mul_left]
        refine congrArg List.sum (List.map_congr_left fun n hn => ?_)
        exact Monomial.value_mul hM hm (hns.within n hn) (hmul m List.mem_cons_self n hn) hu hc σ
      have hcons : MonomialSum.mul (m :: ms) ns = ns.map m.mul ++ MonomialSum.mul ms ns :=
        List.flatMap_cons
      rw [hcons, value_append, hrow, ← ih]
      exact add_mul _ _ _

/-- The scope of a number. -/
def numberScope : Scope :=
  ⟨[], [], [], []⟩

/-- A number denotes itself. -/
theorem denotes_number (v : R) :
    Denotes Δ gdim [{ coefficient := v }] numberScope fun _ _ => M.number v := by
  refine ⟨fun m hm => ?_, fun c σ hc => ?_⟩
  · obtain rfl := List.mem_singleton.mp hm
    exact ⟨fun f hf => absurd hf List.not_mem_nil, fun x hx => absurd hx List.not_mem_nil,
      fun x hx => absurd hx List.not_mem_nil, fun x hx => absurd hx List.not_mem_nil,
      fun _ hne => absurd rfl hne, fun ids hids => nomatch hids⟩
  · have hterm : Monomial.value Δ { coefficient := v } [] c σ = M.number v * 1 := rfl
    show _ = List.sum [Monomial.value Δ { coefficient := v } [] c σ]
    rw [hterm, List.sum_singleton, mul_one]

/-- One more factor of a power of a scalar sum, which shares free indices with the others
only. -/
theorem Denotes.pow_step (hM : M.Exact) (hms : Denotes Δ gdim ms s g) (hshape : s.shape = [])
    (hsorted : s.free.Sorted) {k : Nat} {v : Scope}
    (hk : Denotes Δ gdim (ms.pow k) v fun _ σ => g [] σ ^ k) (hv : v.shape = [])
    (hfree : ∀ x ∈ v.free, x ∈ s.free) (hsummed : ∀ i ∈ v.summed, i ∈ s.summed)
    (hapart : v.summed = [] ∧ v.free = [] ∨ s.summed = []) :
    Denotes Δ gdim (ms.pow (k + 1)) ⟨[], s.free, s.summed, []⟩ fun _ σ => g [] σ ^ (k + 1) := by
  -- monomials of scalars have no open slots
  have hmul : ∀ m ∈ ms.pow k, ∀ n ∈ ms, m.Multiplies n v s := fun m hm n hn =>
    ⟨(hk.within m hm).slots_eq_none hv, (hms.within n hn).slots_eq_none hshape,
      .inl ⟨hv, hshape⟩⟩
  -- the power so far multiplies with one factor more
  have hu : v.Multiplies s ⟨[], s.free, s.summed, []⟩ := by
    refine ⟨.inl ⟨hv, hshape.symm⟩, fun x => ⟨.inr, fun hx => hx.elim (hfree x) id⟩, ?_,
      fun i hi => hi.elim (hsummed i) id, ?_, ?_⟩
    · exact fun x hx y hy hid => congrArg FreeIndex.dim (hsorted.eq_of_id (hfree x hx) hy hid)
    · -- what the factors so far sum over does not occur in the next one
      intro i hi
      rcases hapart with ⟨hnone, -⟩ | hnone
      · rw [hnone] at hi
        cases hi
      · rw [hnone] at hsummed
        cases hsummed i hi
    · -- nor is it the other way round
      intro i hi
      rcases hapart with ⟨-, hnone⟩ | hnone
      · rw [hnone]
        rfl
      · rw [hnone] at hi
        cases hi
  have hnext := hk.mul hM hms hmul hu
  refine ⟨hnext.within, fun c σ hc => Eq.trans ?_ (hnext.value c σ hc)⟩
  rw [hshape, List.length_nil, List.take_zero, pow_succ]

/-- Powers of a scalar sum. The power without factors has no free indices, so there must have
been none; and what is summed over in the base must not be summed over twice. -/
theorem Denotes.pow (hM : M.Exact) (hms : Denotes Δ gdim ms s g) (hshape : s.shape = [])
    (hsorted : s.free.Sorted) (n : Nat) (hzero : n = 0 → s.free = [])
    (hmany : 2 ≤ n → s.summed = []) :
    Denotes Δ gdim (ms.pow n) ⟨[], s.free, s.summed, []⟩ fun _ σ => g [] σ ^ n := by
  have hone : Denotes Δ gdim (ms.pow 0) numberScope fun _ σ => g [] σ ^ 0 := by
    have hnumber : Denotes Δ gdim (one : MonomialSum R) numberScope fun _ _ =>
        M.number Scalar.one := denotes_number Scalar.one
    simp only [pow_zero]
    rwa [hM.one] at hnumber
  match n with
  | 0 =>
    -- no factors, and no free indices
    rw [hzero rfl]
    exact ⟨fun m hm => (hone.within m hm).mono rfl rfl (List.nil_subset _) (List.nil_subset _),
      fun c σ hc => hone.value c σ hc⟩
  | n + 1 =>
    clear hzero
    induction n with
    | zero =>
      -- the first factor is multiplied with one
      exact hms.pow_step hM hshape hsorted hone rfl (fun x hx => absurd hx List.not_mem_nil)
        (fun i hi => absurd hi List.not_mem_nil) (.inl ⟨rfl, rfl⟩)
    | succ n ih =>
      -- from the second factor on, nothing may be summed over
      have hnone := hmany (by omega)
      exact hms.pow_step hM hshape hsorted (ih fun _ => hnone) rfl (fun _ hx => hx)
        (fun _ hi => hi) (.inr hnone)

/-- An operator that is applied to every monomial, and whose effect on values is additive. -/
theorem Denotes.mapM {f : Monomial R → Result R (Monomial R)} (hms : Denotes Δ gdim ms s g)
    (at' : List Nat → Env → List Nat) (env : List Nat → Env → Env) (φ : List Nat → Env → A →+ A)
    (hr : ms.mapM f = .ok ms')
    (hat : ∀ c σ, c.length = s'.shape.length → (at' c σ).length = s.shape.length)
    (hstep : ∀ m m', m.Within gdim s → f m = .ok m' → m'.Within gdim s' ∧
      ∀ c σ, c.length = s'.shape.length →
        m'.value Δ s'.free c σ = φ c σ (m.value Δ s.free (at' c σ) (env c σ))) :
    Denotes Δ gdim ms' s' fun c σ => φ c σ (g (at' c σ) (env c σ)) := by
  have hall := mapM_eq_ok.mp hr
  refine ⟨fun m' hm' => ?_, fun c σ hc => ?_⟩
  -- a monomial of the result comes from one that is within its scope
  · obtain ⟨m, hm, hfm⟩ := exists_left_of_mem hall hm'
    exact (hstep m m' (hms.within m hm) hfm).1
  · rw [hms.value _ _ (hat c σ hc), MonomialSum.value, MonomialSum.value, map_list_sum,
      List.map_map]
    have hwithin := hms.within
    clear hms hr
    -- the operator is additive, one monomial after the other
    induction hall with
    | nil => rfl
    | cons hfm _ ih =>
      have hvalue := (hstep _ _ (hwithin _ List.mem_cons_self) hfm).2 c σ hc
      rw [List.map_cons, List.map_cons, List.sum_cons, List.sum_cons, hvalue,
        ih fun m hm => hwithin m (List.mem_cons_of_mem _ hm)]
      rfl

/-- An index sum leaves the monomials as they are. -/
theorem Denotes.sumOver (hms : Denotes Δ gdim ms s g) {i : IndexId} {d : Nat}
    (hi : (⟨i, d⟩ : FreeIndex) ∈ s.free) {free : FreeIndices}
    (hfree : ∀ x, x ∈ free ↔ x ∈ s.free ∧ x.id ≠ i) :
    Denotes Δ gdim ms ⟨s.shape, free, i :: s.summed, s.opened⟩ fun c σ =>
      ∑ j ∈ Finset.range d, g c (σ.bind [i] [j]) := by
  refine ⟨fun m hm => (hms.within m hm).sumOver i hfree, fun c σ hc => ?_⟩
  -- each monomial sums over one index more
  have hvalue : ∀ m ∈ ms, m.value Δ free c σ =
      ∑ j ∈ Finset.range d, m.value Δ s.free c (σ.bind [i] [j]) := fun m hm =>
    Monomial.value_sumOver (hms.within m hm) hi hfree Δ c σ
  rw [Finset.sum_congr rfl fun j _ => hms.value c (σ.bind [i] [j]) hc, MonomialSum.value,
    List.map_congr_left hvalue]
  clear hms hvalue
  -- the sums over monomials and over positions are interchanged
  induction ms with
  | nil => exact Finset.sum_const_zero
  | cons m ms ih =>
    rw [List.map_cons, List.sum_cons, ← ih, ← Finset.sum_add_distrib]
    rfl

end MonomialSum

end WeakForm
