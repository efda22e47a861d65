import Mathlib.Data.List.Permutation
import WeakForm.Proofs.Descriptors
import WeakForm.Proofs.ModifierOrder

/-!
# Modifiers are built in every order

A modifier is built over an operand if its directions and positions are in range there and its
free indices are new. None of this depends on the order of the modifiers, as long as no gradient
stands outside an indexing: an indexing sees the axes of the terminal and of all gradients, a
derivative sees the domain of the terminal, and free indices are new to those inside if those of
any two modifiers differ. So the modifiers of a chain can be sorted, and balancing does not fail.

* `UnaryOp.Fits`, `UnaryOp.Apart` — what one modifier asks for, and what two do;
* `Takes`, `takes_of_applyAll`, `Takes.applyAll` — modifiers can be built over a terminal exactly
  if it takes them;
* `Takes.mergeSort` — this does not depend on their order;
* `balance_denotes` — balancing keeps what a chain denotes.
-/

namespace WeakForm

/-! ## What modifiers ask for -/

namespace UnaryOp

variable {s : Signature} {axes : List Nat} {f op : UnaryOp} {ops : List UnaryOp}

/-- The positions and the directions of a modifier are in range over a terminal with axes. -/
def Fits (s : Signature) (axes : List Nat) : UnaryOp → Prop
  | indexed is => is.length = axes.length ∧ Signature.Distinct is ∧
      ∀ p d, (.fixed p, d) ∈ is.zip axes → p < d
  | spatialDerivative is => ∃ d, s.domain? = some d ∧ ∀ p, .fixed p ∈ is → p < d.gdim
  | grad | referenceGrad => s.domain?.isSome
  | _ => True

/-- Two modifiers are not both indexings, and have no free index in common. -/
structure Apart (f g : UnaryOp) : Prop where
  indexing : f.isIndexing → g.isIndexing = false
  entries : ∀ i, .free i ∈ f.entries → .free i ∉ g.entries

theorem Apart.symm {g : UnaryOp} (h : Apart f g) : Apart g f where
  indexing hg := by
    by_contra hf
    rw [h.indexing (by simpa using hf)] at hg
    cases hg
  entries i hg hf := h.entries i hf hg

/-- Only an indexing is concerned with the axes. -/
theorem fits_congr {axes' : List Nat} (h : op.isIndexing → axes = axes') :
    op.Fits s axes ↔ op.Fits s axes' := by
  cases op with
  | indexed is => rw [h rfl]
  | math | abs | indexSum | componentTensor | restricted | grad | referenceGrad
    | spatialDerivative | averaged | labelled => exact Iff.rfl

/-- A gradient that stands outside does not concern those inside, none of which is an
indexing. -/
theorem fits_concat (hgrad : op.isGradient → ops.any isIndexing = false) (hf : f ∈ ops) :
    f.Fits s (axesUnder s (ops ++ [op])) ↔ f.Fits s (axesUnder s ops) := by
  refine fits_congr fun hi => axesUnder_concat s ?_
  by_contra hg
  have hplain := List.any_eq_false.mp (hgrad (by simpa using hg)) f hf
  exact hplain hi

/-- A modifier fits where it stands, without its own axis. -/
theorem fits_last : op.Fits s (axesUnder s (ops ++ [op])) ↔ op.Fits s (axesUnder s ops) := by
  refine fits_congr fun hi => axesUnder_concat s ?_
  cases op <;> first | rfl | cases hi

end UnaryOp

namespace Expr

variable {R : Type} [Scalar R] {t : Terminal R} {op : UnaryOp} {ops : List UnaryOp}
  {a e r : Expr R}

/-- A terminal takes modifiers: each of them fits, and any two are apart. -/
structure Takes (t : Terminal R) (ops : List UnaryOp) : Prop where
  wraps : ∀ op ∈ ops, Wraps t op
  fits : ∀ op ∈ ops, op.Fits t.signature (UnaryOp.axesUnder t.signature ops)
  apart : ops.Pairwise UnaryOp.Apart

/-! ## One more modifier -/

/-- What is indexed is not indexed yet, and has the axes of the terminal and the gradients. -/
theorem Wrapped.not_indexed {is : List Index} (ha : Wrapped t ops a) (hne : is ≠ [])
    (hl : is.length = a.rank) :
    ops.any UnaryOp.isIndexing = false ∧ a.shape = UnaryOp.axesUnder t.signature ops := by
  have hplain : ops.any UnaryOp.isIndexing = false := by
    rw [← Bool.not_eq_true]
    intro hi
    rw [rank, ha.shape, if_pos hi] at hl
    exact hne (List.eq_nil_of_length_eq_zero hl)
  refine ⟨hplain, ?_⟩
  rw [ha.shape, hplain, if_neg Bool.false_ne_true]

/-- A modifier that is built fits. -/
theorem Wrapped.fits (ha : Wrapped t ops a) (hw : Wraps t op) (h : op.apply a = .ok r) :
    op.Fits t.signature (UnaryOp.axesUnder t.signature ops) := by
  have hdomain : a.domain? = t.signature.domain? := ha.domain
  cases op with
  | indexed is =>
    obtain ⟨hl, hok⟩ := index_ok h
    -- without indices the operator would not be there
    have hne : is ≠ [] := fun hnil => hw.indexed (congrArg UnaryOp.indexed hnil)
    obtain ⟨-, hshape⟩ := ha.not_indexed hne hl
    rw [← hshape]
    exact ⟨hl, hok.distinct, hok.bounded⟩
  | spatialDerivative is =>
    rcases derivative_built h with ⟨rfl, -⟩ | ⟨-, d, hd, hdirections, -⟩
    · exact absurd rfl hw.derivative
    · exact ⟨d, hdomain ▸ hd, checkDirections_fixed hdirections⟩
  | grad =>
    have hsome := (gradient_built h).1
    rwa [hdomain] at hsome
  | referenceGrad =>
    have hsome := (referenceGradient_built h).1
    rwa [hdomain] at hsome
  | restricted | averaged => trivial
  | math | abs | indexSum | componentTensor | labelled => cases hw.modifier

/-- The free entries of modifiers are free in what is built. -/
theorem has_of_applyAll {f : UnaryOp} {i : IndexId} (hmod : ∀ op ∈ ops, op.isModifier)
    (h : applyAll ops a = .ok r) (hf : f ∈ ops) (hi : .free i ∈ f.entries) : r.free.has i := by
  induction ops using List.reverseRecOn generalizing r with
  | nil => cases hf
  | append_singleton ops op ih =>
    obtain ⟨b, hb, hr⟩ := applyAll_concat.mp h
    rcases List.mem_append.mp hf with hf | hf
    · -- no modifier binds an index
      have hop := hmod op (List.mem_append_right _ (List.mem_singleton.mpr rfl))
      refine has_of_operand hr (ih (fun g hg => hmod g (List.mem_append_left _ hg)) hb hf) ?_
      rw [UnaryOp.bound_of_isModifier hop]
      exact List.not_mem_nil
    -- the index is an entry of the operator applied last
    · obtain rfl := List.mem_singleton.mp hf
      exact has_of_entry hr hi

/-- The free entries of a modifier that is built are new. -/
theorem entries_fresh {i : IndexId} (hop : op.isModifier) (h : op.apply a = .ok r)
    (hi : .free i ∈ op.entries) : a.free.has i = false := by
  cases op with
  | indexed is => exact (index_ok h).2.fresh i hi
  | spatialDerivative is =>
    rcases derivative_built h with ⟨rfl, -⟩ | ⟨-, d, -, hdirections, -⟩
    · cases hi
    · exact checkDirections_ok hdirections i hi
  | grad | referenceGrad | restricted | averaged => cases hi
  | math | abs | indexSum | componentTensor | labelled => cases hop

/-- A modifier that is built is apart from those inside. -/
theorem Wrapped.apart {f : UnaryOp} (ha : Wrapped t ops a)
    (happlied : applyAll ops (leaf t) = .ok a) (hmod : ∀ op ∈ ops, op.isModifier)
    (hw : Wraps t op) (h : op.apply a = .ok r) (hf : f ∈ ops) : UnaryOp.Apart f op where
  indexing hfi := by
    -- two indexings do not stand in one chain
    by_contra hi
    obtain ⟨is, rfl⟩ : ∃ is, op = .indexed is := by
      cases op <;> first | exact ⟨_, rfl⟩ | exact absurd rfl hi
    have hne : is ≠ [] := fun hnil => hw.indexed (congrArg UnaryOp.indexed hnil)
    obtain ⟨hplain, -⟩ := ha.not_indexed hne (index_ok h).1
    exact List.any_eq_false.mp hplain f hf hfi
  -- an index inside is free in the operand, and entries are fresh
  entries i hfi hi := by
    have hhas := has_of_applyAll hmod happlied hf hfi
    rw [entries_fresh hw.modifier h hi] at hhas
    cases hhas

/-- **Modifiers that are built over a terminal are taken by it.** -/
theorem takes_of_applyAll (hconst : (leaf t).isConstantValue = false)
    (hw : ∀ op ∈ ops, Wraps t op) (hgrad : UnaryOp.gradientOfIndexed ops = false)
    (h : applyAll ops (leaf t) = .ok r) : Takes t ops := by
  -- from the terminal outwards
  induction ops using List.reverseRecOn generalizing r with
  | nil => exact ⟨hw, fun op hop => absurd hop List.not_mem_nil, .nil⟩
  | append_singleton ops op ih =>
    obtain ⟨a, ha, hr⟩ := applyAll_concat.mp h
    obtain ⟨hinner, hop⟩ := UnaryOp.gradientOfIndexed_concat hgrad
    have hwinner : ∀ f ∈ ops, Wraps t f := fun f hf => hw f (List.mem_append_left _ hf)
    have hlast := hw op (List.mem_append_right _ (List.mem_singleton.mpr rfl))
    have hwrapped := wrapped_applyAll hconst hwinner hinner ha
    have htakes := ih hwinner hinner ha
    refine ⟨hw, fun f hf => ?_, List.pairwise_append.mpr ⟨htakes.apart, ?_, ?_⟩⟩
    -- the operators below keep their places, and the last one stands over all
    · rcases List.mem_append.mp hf with hf | hf
      · exact (UnaryOp.fits_concat hop hf).mpr (htakes.fits f hf)
      · obtain rfl := List.mem_singleton.mp hf
        exact UnaryOp.fits_last.mpr (hwrapped.fits hlast hr)
    · exact List.pairwise_singleton _ _
    -- and it stands apart from each of them
    · intro f hf g hg
      obtain rfl := List.mem_singleton.mp hg
      exact hwrapped.apart ha (fun f hf => (hwinner f hf).modifier) hlast hr hf

/-- Free entries of a modifier that is apart from those inside are new. -/
theorem Wrapped.fresh {i : IndexId} (ha : Wrapped t ops a)
    (hapart : ∀ f ∈ ops, UnaryOp.Apart f op) (hi : .free i ∈ op.entries) :
    a.free.has i = false := by
  rw [← Bool.not_eq_true]
  intro hhas
  obtain ⟨d, hd⟩ := FreeIndices.has_iff.mp hhas
  obtain ⟨f, hf, hx⟩ := (ha.free _).mp hd
  exact (hapart f hf).entries i (UnaryOp.mem_entries_of_introduced hx) hi

/-- A modifier that fits, and is apart from those inside, is built. -/
theorem Wrapped.exists_apply (ha : Wrapped t ops a) (hw : Wraps t op)
    (hfits : op.Fits t.signature (UnaryOp.axesUnder t.signature ops))
    (hapart : ∀ f ∈ ops, UnaryOp.Apart f op) : ∃ r, op.apply a = .ok r := by
  have hdomain : a.domain? = t.signature.domain? := ha.domain
  have hfresh : ∀ i, .free i ∈ op.entries → a.free.has i = false := fun i hi => ha.fresh hapart hi
  cases op with
  | indexed is =>
    obtain ⟨hl, hdistinct, hbound⟩ := hfits
    -- nothing inside is an indexing, so all axes are there
    have hplain : ops.any UnaryOp.isIndexing = false := by
      rw [List.any_eq_false]
      intro f hf hi
      have := (hapart f hf).indexing hi
      cases this
    have hshape : a.shape = UnaryOp.axesUnder t.signature ops := by
      rw [ha.shape, hplain, if_neg Bool.false_ne_true]
    rw [← hshape] at hl hbound
    have hok : IndicesOk a is a.shape := ⟨hdistinct, hfresh, hbound⟩
    exact exists_index hl (hok.checkIndices hl)
  | spatialDerivative is =>
    -- the directions are those of the domain of the terminal
    obtain ⟨d, hd, hbound⟩ := hfits
    exact exists_derivative (hdomain.trans hd) (checkDirections_eq_ok.mpr ⟨hbound, hfresh⟩)
  | grad => exact exists_gradient (by rwa [hdomain])
  | referenceGrad => exact exists_referenceGradient (by rwa [hdomain])
  | restricted | averaged => exact ⟨_, rfl⟩
  | math | abs | indexSum | componentTensor | labelled => cases hw.modifier

omit [Scalar R] in
/-- The modifiers inside one that is taken are taken. -/
theorem Takes.inner (h : Takes t (ops ++ [op]))
    (hgrad : op.isGradient → ops.any UnaryOp.isIndexing = false) : Takes t ops where
  wraps f hf := h.wraps f (List.mem_append_left _ hf)
  fits f hf := (UnaryOp.fits_concat hgrad hf).mp (h.fits f (List.mem_append_left _ hf))
  apart := (List.pairwise_append.mp h.apart).1

/-- **Modifiers that a terminal takes are built over it.** -/
theorem Takes.applyAll (h : Takes t ops) (hconst : (leaf t).isConstantValue = false)
    (hgrad : UnaryOp.gradientOfIndexed ops = false) : ∃ r, applyAll ops (leaf t) = .ok r := by
  -- from the terminal outwards
  induction ops using List.reverseRecOn with
  | nil => exact ⟨leaf t, rfl⟩
  | append_singleton ops op ih =>
    obtain ⟨hinner, hop⟩ := UnaryOp.gradientOfIndexed_concat hgrad
    obtain ⟨a, ha⟩ := ih (h.inner hop) hinner
    have hlast : op ∈ ops ++ [op] := List.mem_append_right _ (List.mem_singleton.mpr rfl)
    have hwrapped := wrapped_applyAll hconst (h.inner hop).wraps hinner ha
    have hapart : ∀ f ∈ ops, UnaryOp.Apart f op := fun f hf =>
      (List.pairwise_append.mp h.apart).2.2 f hf op (List.mem_singleton.mpr rfl)
    -- the operator applied last fits over the others
    obtain ⟨r, hr⟩ := hwrapped.exists_apply (h.wraps op hlast)
      (UnaryOp.fits_last.mp (h.fits op hlast)) hapart
    exact ⟨r, applyAll_concat.mpr ⟨a, ha, hr⟩⟩

/-! ## Balancing -/

omit [Scalar R] in
/-- Sorted modifiers are taken as the given ones are. -/
theorem Takes.mergeSort (h : Takes t ops) : Takes t (ops.mergeSort UnaryOp.layerLE) where
  wraps op hop := h.wraps op (UnaryOp.mem_mergeSort_layerLE.mp hop)
  fits op hop := by
    rw [axesUnder_mergeSort _ fun f hf => (h.wraps f hf).modifier]
    exact h.fits op (UnaryOp.mem_mergeSort_layerLE.mp hop)
  apart := ((List.mergeSort_perm ops _).pairwise_iff UnaryOp.Apart.symm).mpr h.apart

/-- **Balancing does not fail.** -/
theorem exists_balance (hcan : Canonical e) : ∃ r, balance e = .ok r := by
  rcases balance_cases hcan with heq | ⟨t, ops, hs⟩
  · exact ⟨e, heq⟩
  · have htakes := takes_of_applyAll hs.varying hs.wraps hs.plain hs.applied
    rw [hs.balanced]
    exact htakes.mergeSort.applyAll hs.varying
      (UnaryOp.gradientOfIndexed_mergeSort hs.chain.isModifier)

/-- **Balancing keeps what a chain denotes**: the balanced chain exists, has the shape, the free
indices and the descriptor of the chain, and is in balance. What is no chain stays as it is. -/
theorem balance_denotes [DecidableEq R] (he : Obtained e) :
    ∃ r, balance e = .ok r ∧ r.shape = e.shape ∧ r.free = e.free ∧ balance r = .ok r ∧
      ∀ d, e.analyse = .ok (some d) →
        ∃ d', r.analyse = .ok (some d') ∧ d'.toDescriptor = d.toDescriptor := by
  have hcan := obtained_canonical he
  obtain ⟨r, hr⟩ := exists_balance hcan
  have hkept := balance_chain hcan hr
  exact ⟨r, hr, hkept.shape, hkept.free, balance_balance hcan hr,
    fun d hd => analyse_balance hcan hr hd⟩

/-- The restriction moves outwards, past the gradient and the average. -/
theorem balance_denotes_chain :
    Obtained AveragedSlope.chain ∧
    AveragedSlope.chain.analyse = .ok (some AveragedSlope.descriptor) ∧
    balance AveragedSlope.chain = .ok (unary (.indexed [.fixed 1, .fixed 0])
      (unary (.restricted .positive) (unary (.averaged .cell) (unary .grad
        (unary (.spatialDerivative [.fixed 1]) AveragedSlope.field))))) ∧
    ∃ r, balance AveragedSlope.chain = .ok r ∧ r.shape = AveragedSlope.chain.shape ∧
      r.free = AveragedSlope.chain.free ∧ balance r = .ok r ∧
      ∀ d, AveragedSlope.chain.analyse = .ok (some d) →
        ∃ d', r.analyse = .ok (some d') ∧ d'.toDescriptor = d.toDescriptor :=
  ⟨AveragedSlope.built_chain.obtained, AveragedSlope.analyse_chain, by cbv,
    balance_denotes AveragedSlope.built_chain.obtained⟩

end Expr

end WeakForm
