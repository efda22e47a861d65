import Mathlib.Data.List.Dedup
import WeakForm.Monomial.Extraction
import WeakForm.Proofs.Differential
import WeakForm.Proofs.ImplicitSums

/-!
# Values of monomials

A factor is a component of a function, under derivatives and on a side. A monomial stands
for the sum of its coefficient times its factors over all positions of the indices that occur
in it and are not free in the integrand. Where slots are open, they are bound to the component
at which the value is taken; a single function that is not indexed yet has the component
itself.

* `Factor.places`, `Monomial.places` — the indices that occur, with what they range over;
* `Factor.value`, `Monomial.term`, `Monomial.value`, `MonomialSum.value` — values;
* `Scope`, `Monomial.Within` — what is known of the indices of a monomial;
* `value_eq_sumOver` — the value of a monomial, for any list of the indices summed over.
-/

namespace WeakForm

variable {R A : Type} [CommRing A]

/-! ## Functions -/

/-- The restriction to a side, if there is one. -/
def Model.Differential.onSide {M : Model R A} (Δ : M.Differential) : Option Side → A →+* A
  | none => .id A
  | some s => Δ.side s

/-- Derivatives commute with restrictions to a side. -/
theorem Model.Differential.derive_onSide {M : Model R A} (Δ : M.Differential) (ks : List Nat)
    (side : Option Side) (x : A) :
    Δ.derive ks (Δ.onSide side x) = Δ.onSide side (Δ.derive ks x) := by
  cases side with
  | none => rfl
  | some s => exact Δ.derive_side ks s x

/-- A terminal has no free indices, so that its value does not depend on positions. -/
theorem Expr.value_leaf_env [Scalar R] (M : Model R A) (t : Terminal R) (c : List Nat)
    (σ τ : Env) : (leaf t).value M c σ = (leaf t).value M c τ := by
  cases t <;> rfl

namespace Factor

/-- The indices of a factor: those of components, with the axes of the function, and the
directions of derivatives. -/
def places (f : Factor R) : FreeIndices :=
  Signature.indexedFree f.components f.function.shape ++
    Signature.directionFree f.derivatives f.function.signature.gdim

theorem mem_places {f : Factor R} {x : FreeIndex} : x ∈ f.places ↔
    (Index.free x.id, x.dim) ∈ f.components.zip f.function.shape ∨
      Index.free x.id ∈ f.derivatives ∧ x.dim = f.function.signature.gdim := by
  rw [places, List.mem_append, Signature.mem_indexedFree, Signature.mem_directionFree]

/-- A factor of a function in a space of dimension `gdim`, with all components or none. -/
structure Formed (f : Factor R) (gdim : Nat) : Prop where
  function : ∃ t, f.function = .leaf t
  gdim : f.function.signature.gdim = gdim
  components : f.components = [] ∨ f.components.length = f.function.shape.length

/-- A free index among the components of a factor is one of its places. -/
theorem Formed.mem_places_of_component {f : Factor R} {gdim : Nat} {i : IndexId}
    (h : f.Formed gdim) (hi : .free i ∈ f.components) : ∃ x ∈ f.places, x.id = i := by
  have hl : f.components.length = f.function.shape.length := by
    refine h.components.resolve_left fun hnil => ?_
    rw [hnil] at hi
    cases hi
  have hfst : (f.components.zip f.function.shape).map Prod.fst = f.components :=
    List.map_fst_zip (Nat.le_of_eq hl)
  rw [← hfst] at hi
  obtain ⟨⟨j, d⟩, hmem, rfl⟩ := List.mem_map.mp hi
  exact ⟨⟨i, d⟩, mem_places.mpr (.inl hmem), rfl⟩

/-- A free direction of a derivative is one of the places of its factor. -/
theorem mem_places_of_direction {f : Factor R} {i : IndexId} (hi : .free i ∈ f.derivatives) :
    ∃ x ∈ f.places, x.id = i :=
  ⟨⟨i, f.function.signature.gdim⟩, mem_places.mpr (.inr ⟨hi, rfl⟩), rfl⟩

variable [Scalar R] {M : Model R A}

/-- The value of a factor. The component is given where it has no components yet. -/
def value (Δ : M.Differential) (f : Factor R) (c : List Nat) (σ : Env) : A :=
  Δ.onSide f.restriction <| Δ.derive (f.derivatives.map σ.resolve) <|
    f.function.value M (if f.components.isEmpty then c else f.components.map σ.resolve) σ

/-- A factor reads the positions of its indices. -/
theorem Formed.reads {f : Factor R} {gdim : Nat} (h : f.Formed gdim) (Δ : M.Differential)
    (c : List Nat) : Env.Reads (f.value Δ c) fun i => ∃ x ∈ f.places, x.id = i := by
  intro σ τ hστ
  -- an index that occurs has one position in both
  have hresolve : ∀ j : Index, (∀ i, j = .free i → ∃ x ∈ f.places, x.id = i) →
      σ.resolve j = τ.resolve j := by
    intro j hj
    cases j with
    | fixed p => rfl
    | free i => exact hστ i (hj i rfl)
  have hcomponents : f.components.map σ.resolve = f.components.map τ.resolve :=
    List.map_congr_left fun j hj => hresolve j fun i hi => h.mem_places_of_component (hi ▸ hj)
  have hderivatives : f.derivatives.map σ.resolve = f.derivatives.map τ.resolve :=
    List.map_congr_left fun j hj => hresolve j fun i hi => mem_places_of_direction (hi ▸ hj)
  obtain ⟨t, ht⟩ := h.function
  -- the function itself has no free indices
  rw [value, value, hcomponents, hderivatives, ht, Expr.value_leaf_env M t _ σ τ]

end Factor

/-! ## Monomials -/

namespace Monomial

/-- The indices of a monomial. -/
def places (m : Monomial R) : FreeIndices :=
  m.factors.flatMap Factor.places

/-- The open slots. -/
def axes (m : Monomial R) : List IndexId :=
  m.slots.getD []

/-- The indices that are summed over: those that are neither free in the integrand nor
open slots. -/
def hidden (m : Monomial R) (free : FreeIndices) : FreeIndices :=
  (m.places.filter fun x => !free.has x.id && !m.axes.contains x.id).dedup

theorem axes_of_none {m : Monomial R} (h : m.slots = none) : m.axes = [] := by
  rw [axes, h, Option.getD_none]

theorem axes_of_some {m : Monomial R} {ids : List IndexId} (h : m.slots = some ids) :
    m.axes = ids := by
  rw [axes, h, Option.getD_some]

theorem mem_places {m : Monomial R} {x : FreeIndex} :
    x ∈ m.places ↔ ∃ f ∈ m.factors, x ∈ f.places :=
  List.mem_flatMap

theorem mem_hidden {m : Monomial R} {free : FreeIndices} {x : FreeIndex} :
    x ∈ m.hidden free ↔ x ∈ m.places ∧ free.has x.id = false ∧ x.id ∉ m.axes := by
  rw [hidden, List.mem_dedup, List.mem_filter]
  simp

/-- Every index ranges over one dimension. -/
def Consistent (m : Monomial R) : Prop :=
  ∀ x ∈ m.places, ∀ y ∈ m.places, x.id = y.id → x = y

/-- An index is summed over once. -/
theorem Consistent.nodup_hidden {m : Monomial R} (h : m.Consistent) (free : FreeIndices) :
    ((m.hidden free).map (·.id)).Nodup := by
  refine List.Nodup.map_on (fun x hx y hy hid => ?_) (List.nodup_dedup _)
  exact h x (mem_hidden.mp hx).1 y (mem_hidden.mp hy).1 hid

variable [Scalar R] {M : Model R A}

/-- The coefficient times the factors, at a component and at positions for all indices. -/
def term (Δ : M.Differential) (m : Monomial R) (c : List Nat) (σ : Env) : A :=
  M.number m.coefficient * (m.factors.map fun f =>
    f.value Δ (if m.slots.isSome then [] else c) (σ.bind m.axes c)).prod

/-- The value of a monomial, with the summation that it implies. -/
def value (Δ : M.Differential) (m : Monomial R) (free : FreeIndices) (c : List Nat) (σ : Env) :
    A :=
  Env.sumOver (m.hidden free) (m.term Δ c) σ

/-- A monomial without slots multiplies its factors at the component. -/
theorem term_of_none {m : Monomial R} (Δ : M.Differential) (h : m.slots = none) (c : List Nat)
    (σ : Env) : m.term Δ c σ =
      M.number m.coefficient * (m.factors.map fun f => f.value Δ c σ).prod := by
  rw [term, axes, h, Option.getD_none, Env.bind_nil]
  rfl

/-- A monomial with slots binds them to the component. -/
theorem term_of_some {m : Monomial R} (Δ : M.Differential) {ids : List IndexId}
    (h : m.slots = some ids) (c : List Nat) (σ : Env) : m.term Δ c σ =
      M.number m.coefficient * (m.factors.map fun f => f.value Δ [] (σ.bind ids c)).prod := by
  rw [term, axes, h]
  rfl

/-- A monomial reads the positions of its indices. -/
theorem reads_term {m : Monomial R} {gdim : Nat} (Δ : M.Differential)
    (h : ∀ f ∈ m.factors, f.Formed gdim) (c : List Nat) :
    Env.Reads (m.term Δ c) fun i => ∃ x ∈ m.places, x.id = i := by
  intro σ τ hστ
  rw [term, term]
  refine congrArg (M.number m.coefficient * List.prod ·) (List.map_congr_left fun f hf => ?_)
  refine (h f hf).reads Δ _ _ _ ?_
  rintro i ⟨x, hx, rfl⟩
  -- a slot has its position, and everything else that of before
  rw [Env.bind, Env.bind, hστ x.id ⟨x, mem_places.mpr ⟨f, hf, hx⟩, rfl⟩]

/-- **The value of a monomial** is the sum over its hidden indices, in any order. -/
theorem value_eq_sumOver {m : Monomial R} (Δ : M.Differential) {free xs : FreeIndices}
    (hnodup : (xs.map (·.id)).Nodup)
    (hxs : ∀ x, x ∈ xs ↔ x ∈ m.places ∧ free.has x.id = false ∧ x.id ∉ m.axes) (c : List Nat)
    (σ : Env) : m.value Δ free c σ = Env.sumOver xs (m.term Δ c) σ := by
  -- two lists of the same indices, each without repetition
  have hperm : xs.Perm (m.hidden free) :=
    (List.perm_ext_iff_of_nodup (List.Nodup.of_map _ hnodup) (List.nodup_dedup _)).mpr fun x =>
      (hxs x).trans mem_hidden.symm
  exact (Env.sumOver_perm hperm hnodup).symm

end Monomial

/-- The value of a sum of monomials. -/
def MonomialSum.value [Scalar R] {M : Model R A} (Δ : M.Differential) (ms : MonomialSum R)
    (free : FreeIndices) (c : List Nat) (σ : Env) : A :=
  (ms.map fun m => m.value Δ free c σ).sum

/-! ## What is known of the indices -/

/-- The shape and the free indices of an expression, the indices it sums over, and the open
slots of its monomials. -/
structure Scope where
  shape : List Nat
  free : FreeIndices
  summed : List IndexId
  opened : List IndexId

/-- A monomial of an expression with the given scope. Every free index occurs in it, and what
else occurs is summed over or an open slot. Where the expression is a tensor, the monomial has
a slot for every axis, or is a single function with these axes. -/
structure Monomial.Within (m : Monomial R) (gdim : Nat) (s : Scope) : Prop where
  formed : ∀ f ∈ m.factors, f.Formed gdim
  consistent : m.Consistent
  occurs : ∀ x ∈ s.free, x ∈ m.places
  known : ∀ x ∈ m.places, s.free.has x.id ∨ x.id ∈ s.summed ∨ x.id ∈ m.axes
  single : m.slots = none → s.shape ≠ [] →
    ∃ f, m.factors = [f] ∧ f.components = [] ∧ f.function.shape = s.shape
  slots : ∀ ids, m.slots = some ids → ids ≠ [] ∧ ids.length = s.shape.length ∧ ids.Nodup ∧
    (∀ i ∈ ids, s.free.has i = false ∧ i ∈ s.opened) ∧
    ∀ i d, (i, d) ∈ ids.zip s.shape → (⟨i, d⟩ : FreeIndex) ∈ m.places

namespace Monomial.Within

variable {m : Monomial R} {gdim : Nat} {s s' : Scope}

/-- A scope of which less is known. -/
theorem mono (h : m.Within gdim s) (hshape : s'.shape = s.shape) (hfree : s'.free = s.free)
    (hsummed : s.summed ⊆ s'.summed) (hopened : s.opened ⊆ s'.opened) : m.Within gdim s' where
  formed := h.formed
  consistent := h.consistent
  occurs x hx := h.occurs x (hfree ▸ hx)
  known x hx := by
    rw [hfree]
    -- what is summed over or opened in the smaller scope is so in the larger one
    exact (h.known x hx).imp_right fun hother => hother.imp_left fun hs => hsummed hs
  single hnone hne := by
    rw [hshape] at hne ⊢
    exact h.single hnone hne
  slots ids hids := by
    obtain ⟨hne, hl, hnodup, hopen, hplaces⟩ := h.slots ids hids
    rw [hshape, hfree]
    exact ⟨hne, hl, hnodup, fun i hi => ⟨(hopen i hi).1, hopened (hopen i hi).2⟩, hplaces⟩

/-- Without axes there are no slots. -/
theorem slots_eq_none (h : m.Within gdim s) (hshape : s.shape = []) : m.slots = none := by
  cases hids : m.slots with
  | none => rfl
  | some ids =>
    obtain ⟨hne, hl, -⟩ := h.slots ids hids
    rw [hshape] at hl
    exact absurd (List.eq_nil_of_length_eq_zero hl) hne

/-- Slots are open in the expression, and are none of its free indices. -/
theorem of_mem_axes (h : m.Within gdim s) {i : IndexId} (hi : i ∈ m.axes) :
    s.free.has i = false ∧ i ∈ s.opened := by
  cases hids : m.slots with
  | none =>
    rw [axes_of_none hids] at hi
    cases hi
  | some ids =>
    rw [axes_of_some hids] at hi
    exact (h.slots ids hids).2.2.2.1 i hi

theorem not_mem_axes (h : m.Within gdim s) {x : FreeIndex} (hx : x ∈ s.free) : x.id ∉ m.axes :=
  fun hmem => FreeIndices.not_has_iff.mp (h.of_mem_axes hmem).1 x.dim hx

/-- What occurs under the name of a free index is the free index. -/
theorem mem_free (h : m.Within gdim s) {x : FreeIndex} (hx : x ∈ m.places)
    (hfree : s.free.has x.id) : x ∈ s.free := by
  obtain ⟨d, hd⟩ := FreeIndices.has_iff.mp hfree
  rw [h.consistent x hx ⟨x.id, d⟩ (h.occurs _ hd) rfl]
  exact hd

/-- A hidden index is summed over. -/
theorem mem_summed (h : m.Within gdim s) {x : FreeIndex} (hx : x ∈ m.hidden s.free) :
    x.id ∈ s.summed := by
  obtain ⟨hplace, hfree, haxes⟩ := mem_hidden.mp hx
  rcases h.known x hplace with hknown | hknown | hknown
  · rw [hfree] at hknown
    cases hknown
  · exact hknown
  · exact absurd hknown haxes

/-- What is hidden stays so under an operator that adds free indices which are not summed over
inside. -/
theorem mem_hidden_of_introduced (h : m.Within gdim s) {m' : Monomial R} {free : FreeIndices}
    {new : FreeIndex → Prop} (hfree : ∀ x, x ∈ free ↔ x ∈ s.free ∨ new x)
    (hplaces : ∀ x, x ∈ m'.places ∧ x.id ∉ m'.axes ↔ (x ∈ m.places ∧ x.id ∉ m.axes) ∨ new x)
    (hnew : ∀ x, new x → x.id ∉ s.summed) (x : FreeIndex) :
    x ∈ m.hidden s.free ↔ x ∈ m'.places ∧ free.has x.id = false ∧ x.id ∉ m'.axes := by
  constructor
  · -- a summed index stays one, since what is new is not summed
    intro hx
    obtain ⟨hplace, hnot, haxes⟩ := mem_hidden.mp hx
    obtain ⟨hplace', haxes'⟩ := (hplaces x).mpr (.inl ⟨hplace, haxes⟩)
    have hsummed := h.mem_summed hx
    refine ⟨hplace', FreeIndices.not_has_iff.mpr fun d hd => ?_, haxes'⟩
    -- it is free afterwards only as a new index
    rcases (hfree _).mp hd with hd | hd
    · exact FreeIndices.not_has_iff.mp hnot d hd
    · exact hnew _ hd hsummed
  · -- what is summed after is not new, so it was summed before
    rintro ⟨hplace', hnot, haxes'⟩
    rcases (hplaces x).mp ⟨hplace', haxes'⟩ with ⟨hplace, haxes⟩ | hx
    · have hnot' := FreeIndices.not_has_mono hnot fun d hd => (hfree _).mpr (.inl hd)
      exact mem_hidden.mpr ⟨hplace, hnot', haxes⟩
    · exact absurd ((hfree x).mpr (.inr hx)) (FreeIndices.not_has_iff.mp hnot x.dim)

omit [CommRing A] in
/-- The summation leaves indices where they are that it is not over. -/
theorem map_resolve (h : m.Within gdim s) {is : List Index} {σ τ : Env}
    (his : ∀ i, .free i ∈ is → i ∉ s.summed)
    (hτ : ∀ i, (∀ x ∈ m.hidden s.free, x.id ≠ i) → τ i = σ i) :
    is.map τ.resolve = is.map σ.resolve := by
  refine List.map_congr_left fun j hj => ?_
  cases j with
  | fixed p => rfl
  | free i => exact hτ i fun x hx hid => his i hj (hid ▸ h.mem_summed hx)

end Monomial.Within

end WeakForm
