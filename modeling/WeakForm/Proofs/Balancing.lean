import Mathlib.Data.List.Basic
import WeakForm.Proofs.Chains
import WeakForm.Proofs.Integrands

/-!
# Balancing keeps the attributes of a chain

Balancing sorts the modifiers of a chain by their layer. The order of two modifiers of
different layers does not matter for the shape and the free indices: a gradient adds an
axis, an indexing consumes all of them, and the directions of a derivative are free
whatever stands inside. Only the axes of several gradients come in the order of the
gradients, and that order is kept, since the sort is stable.

* `Wraps` — the modifiers that put a node on top of a terminal's chain;
* `Wrapped`, `wrapped_applyAll` — the attributes of a terminal under modifiers;
* `ChainOf.applyAll` — a chain is its terminal under its modifiers;
* `filter_isGradient_mergeSort`, `gradientOfIndexed_mergeSort` — what sorting keeps;
* `Sortable`, `balance_cases` — what balancing does;
* `chain_balance`, `balance_chain` — the balanced chain is one, with the attributes of the
  chain.
-/

namespace WeakForm

/-! ## Modifiers in the order of their layers -/

namespace UnaryOp

variable {op : UnaryOp} {ops : List UnaryOp}

/-- The position of an operator in a balanced chain. -/
def layerRank (op : UnaryOp) : Nat :=
  (op.layer?.map Layer.rank).getD 0

/-- The total order of operators that `layerLE` is on modifiers. -/
def inside (f g : UnaryOp) : Bool :=
  f.layerRank ≤ g.layerRank

/-- On modifiers, the order of layers is that of the ranks. -/
theorem layerLE_eq {f g : UnaryOp} (hf : f.isModifier) (hg : g.isModifier) :
    layerLE f g = f.inside g := by
  have hsome : ∀ {op : UnaryOp}, op.isModifier → ∃ l, op.layer? = some l := by
    intro op hop
    cases op <;> first | exact ⟨_, rfl⟩ | cases hop
  obtain ⟨l, hl⟩ := hsome hf
  obtain ⟨m, hm⟩ := hsome hg
  rw [layerLE, inside, layerRank, layerRank, hl, hm]
  rfl

/-- `layerLE` is no order where operators are not modifiers: they are below everything and
above everything. -/
theorem mergeSort_layerLE (h : ∀ op ∈ ops, op.isModifier) :
    ops.mergeSort layerLE = ops.mergeSort inside := by
  have := List.map_mergeSort (r := layerLE) (f := id) (s := inside)
    fun f hf g hg => layerLE_eq (h f hf) (h g hg)
  rwa [List.map_id, List.map_id] at this

theorem inside_trans (f g k : UnaryOp) (hfg : f.inside g) (hgk : g.inside k) : f.inside k :=
  decide_eq_true (Nat.le_trans (of_decide_eq_true hfg) (of_decide_eq_true hgk))

theorem inside_total (f g : UnaryOp) : f.inside g || g.inside f := by
  simpa [inside] using Nat.le_total f.layerRank g.layerRank

theorem layerRank_of_isGradient {f : UnaryOp} (h : f.isGradient) : f.layerRank = 0 := by
  cases f <;> first | rfl | cases h

theorem layerRank_of_isIndexing {f : UnaryOp} (h : f.isIndexing) : f.layerRank = 3 := by
  cases f <;> first | rfl | cases h

/-- Sorted modifiers are the given ones in another order. -/
theorem mem_mergeSort_layerLE : op ∈ ops.mergeSort layerLE ↔ op ∈ ops :=
  List.mem_mergeSort

/-- Gradients are of one layer, so they keep their order. -/
theorem filter_isGradient_mergeSort (h : ∀ op ∈ ops, op.isModifier) :
    (ops.mergeSort layerLE).filter isGradient = ops.filter isGradient := by
  have hsublist : (ops.filter isGradient).Sublist (ops.mergeSort layerLE) := by
    rw [mergeSort_layerLE h]
    refine List.sublist_mergeSort inside_trans inside_total
      (List.pairwise_of_forall_mem_list fun f hf g hg => ?_) List.filter_sublist
    rw [inside, layerRank_of_isGradient (List.of_mem_filter hf),
      layerRank_of_isGradient (List.of_mem_filter hg)]
    rfl
  have hfilter := hsublist.filter isGradient
  rw [List.filter_filter, funext fun op => Bool.and_self (isGradient op)] at hfilter
  -- a sublist with as many items is the list
  have hlength := ((List.mergeSort_perm ops layerLE).filter isGradient).length_eq
  exact (hfilter.eq_of_length hlength.symm).symm

/-- Where modifiers are sorted, no gradient stands outside an indexing. -/
theorem gradientOfIndexed_mergeSort (h : ∀ op ∈ ops, op.isModifier) :
    gradientOfIndexed (ops.mergeSort layerLE) = false := by
  -- sorted ranks never fall, so no gradient stands over an indexing
  have hsorted : (ops.mergeSort layerLE).Pairwise fun f g => f.layerRank ≤ g.layerRank := by
    rw [mergeSort_layerLE h]
    exact (List.pairwise_mergeSort inside_trans inside_total ops).imp fun hle =>
      of_decide_eq_true hle
  generalize ops.mergeSort layerLE = sorted at hsorted
  induction sorted with
  | nil => rfl
  | cons op ops ih =>
    obtain ⟨hle, hrest⟩ := List.pairwise_cons.mp hsorted
    rw [gradientOfIndexed, ih hrest, Bool.or_false, Bool.and_eq_false_imp, List.any_eq_false]
    intro hi g hg hgrad
    have := hle g hg
    rw [layerRank_of_isIndexing hi, layerRank_of_isGradient hgrad] at this
    exact absurd this (by decide)

/-- Of an operator and those inside it: none of them is a gradient outside an indexing. -/
theorem gradientOfIndexed_concat (h : gradientOfIndexed (ops ++ [op]) = false) :
    gradientOfIndexed ops = false ∧ (op.isGradient → ops.any isIndexing = false) := by
  induction ops with
  | nil => exact ⟨rfl, fun _ => rfl⟩
  | cons f ops ih =>
    rw [List.cons_append, gradientOfIndexed, Bool.or_eq_false_iff] at h
    obtain ⟨hf, hops⟩ := h
    obtain ⟨hgrad, hindex⟩ := ih hops
    rw [List.any_append, List.any_cons, List.any_nil, Bool.or_false, Bool.and_or_distrib_left,
      Bool.or_eq_false_iff] at hf
    -- what holds of the longer chain holds of the chain beneath its last modifier
    refine ⟨?_, fun hop => ?_⟩
    · rw [gradientOfIndexed, hf.1, hgrad, Bool.or_self]
    · rw [hop, Bool.and_true] at hf
      rw [List.any_cons, hf.2, hindex hop, Bool.or_self]

/-! ## Axes and indices over a terminal -/

/-- The axis that a gradient adds. -/
def gradientAxis (s : Signature) : UnaryOp → Nat
  | grad => s.gdim
  | referenceGrad => s.tdim
  | _ => 0

/-- The axes of a terminal under the gradients among modifiers. -/
def axesUnder (s : Signature) (ops : List UnaryOp) : List Nat :=
  s.shape ++ (ops.filter isGradient).map (gradientAxis s)

/-- Only gradients add axes. -/
theorem axesUnder_concat (s : Signature) (h : op.isGradient = false) :
    axesUnder s (ops ++ [op]) = axesUnder s ops := by
  rw [axesUnder, axesUnder, List.filter_append, List.filter_singleton, h]
  simp

/-- Only the indices of an indexing depend on the shape of what is indexed. -/
theorem introduced_of_not_isIndexing {s s' : Signature} (h : op.isIndexing = false)
    (hdomain : s.domain? = s'.domain?) : op.introduced s = op.introduced s' := by
  cases op with
  | indexed is => cases h
  | spatialDerivative is =>
    show Signature.directionFree is s.gdim = Signature.directionFree is s'.gdim
    rw [Signature.gdim, Signature.gdim, hdomain]
  | math | abs | indexSum | componentTensor | restricted | grad | referenceGrad | averaged
    | labelled => rfl

end UnaryOp

namespace Expr

/-! ## A terminal under modifiers -/

section Wrapped

variable {R : Type} [Scalar R] {t : Terminal R} {op : UnaryOp} {ops : List UnaryOp}
  {a e r : Expr R}

/-- A modifier that puts a node on top of a chain of the terminal. -/
structure Wraps (t : Terminal R) (op : UnaryOp) : Prop where
  modifier : op.isModifier
  indexed : op ≠ .indexed []
  derivative : op ≠ .spatialDerivative []
  varies : op.layer? = some .derivative → t.isCellwiseConstant = false

/-- The attributes of a terminal under modifiers, innermost first. -/
structure Wrapped (t : Terminal R) (ops : List UnaryOp) (e : Expr R) : Prop where
  canonical : Canonical e
  core : e.core = some t
  varying : e.isConstantValue = false
  domain : e.domain? = t.domain?
  cellwise : e.isCellwiseConstant = t.isCellwiseConstant
  shape : e.shape = if ops.any UnaryOp.isIndexing then [] else UnaryOp.axesUnder t.signature ops
  free : ∀ x, x ∈ e.free ↔ ∃ op ∈ ops,
    x ∈ op.introduced { t.signature with shape := UnaryOp.axesUnder t.signature ops }

/-- On a chain of its terminal, such a modifier does not fold. -/
theorem Wraps.node (hw : Wraps t op) (hconst : a.isConstantValue = false)
    (hcell : a.isCellwiseConstant = t.isCellwiseConstant) (h : op.apply a = .ok r) :
    r = unary op a := by
  -- a derivative does not vanish, since the terminal is not constant on each cell
  have hderived : op.layer? = some .derivative → Derived op a r → r = unary op a := by
    intro hop hr
    cases hr with
    | zero ha =>
      rw [hcell, hw.varies hop] at ha
      cases ha
    | node => rfl
  cases op with
  | indexed is =>
    obtain ⟨-, ⟨rfl, -⟩ | ⟨-, -, hr⟩⟩ := index_built h
    · exact absurd rfl hw.indexed
    · cases hr with
      | zero ha =>
        rw [isConstantValue_of_isZero ha] at hconst
        cases hconst
      | node => rfl
  | restricted side => exact (Except.ok.inj h).symm.trans (if_neg (by rw [hconst]; decide))
  | averaged region => exact (Except.ok.inj h).symm.trans (if_neg (by rw [hconst]; decide))
  | grad => exact hderived rfl (gradient_built h).2
  | referenceGrad => exact hderived rfl (referenceGradient_built h).2
  | spatialDerivative is =>
    rcases derivative_built h with ⟨rfl, -⟩ | ⟨-, -, -, -, hr⟩
    · exact absurd rfl hw.derivative
    · exact hderived rfl hr
  | math | abs | indexSum | componentTensor | labelled => cases hw.modifier

/-- What a modifier adds is what it adds over the terminal with its axes. -/
theorem Wrapped.introduced (ha : Wrapped t ops a) (hw : Wraps t op) (h : op.apply a = .ok r) :
    op.introduced a.signature =
      op.introduced { t.signature with shape := UnaryOp.axesUnder t.signature ops } := by
  have hdomain : a.signature.domain? = t.signature.domain? := ha.domain
  cases op with
  | indexed is =>
    -- what is indexed has axes, so it is not indexed yet
    have hlength : is.length = a.shape.length := (index_ok h).1
    have hplain : ops.any UnaryOp.isIndexing = false := by
      rw [← Bool.not_eq_true]
      intro hi
      rw [ha.shape, if_pos hi] at hlength
      exact hw.indexed (congrArg UnaryOp.indexed (List.eq_nil_of_length_eq_zero hlength))
    have hshape : a.signature.shape = UnaryOp.axesUnder t.signature ops := by
      have := ha.shape
      rwa [hplain] at this
    show Signature.indexedFree is a.signature.shape = _
    rw [hshape]
    rfl
  | math | abs | indexSum | componentTensor | restricted | grad | referenceGrad
    | spatialDerivative | averaged | labelled =>
    exact UnaryOp.introduced_of_not_isIndexing rfl hdomain

/-- The shape under one more modifier. -/
theorem Wrapped.shape_apply (ha : Wrapped t ops a) (hw : Wraps t op)
    (hgrad : op.isGradient → ops.any UnaryOp.isIndexing = false) (h : op.apply a = .ok r) :
    r.shape = if (ops ++ [op]).any UnaryOp.isIndexing then []
      else UnaryOp.axesUnder t.signature (ops ++ [op]) := by
  have hdomain : a.signature.domain? = t.signature.domain? := ha.domain
  -- an operator that leaves the axes alone
  have hplain : op.isIndexing = false → op.isGradient = false → op.shape a.signature = a.shape →
      r.shape = if (ops ++ [op]).any UnaryOp.isIndexing then []
        else UnaryOp.axesUnder t.signature (ops ++ [op]) := by
    intro hi hg hs
    rw [(attributes_unary h).1, hs, ha.shape, UnaryOp.axesUnder_concat _ hg, List.any_append,
      List.any_cons, hi]
    simp
  -- a gradient adds an axis, and nothing beneath it takes axes away
  have hgradient : op.isGradient → op.isIndexing = false →
      op.shape a.signature = a.shape ++ [op.gradientAxis t.signature] →
      r.shape = if (ops ++ [op]).any UnaryOp.isIndexing then []
        else UnaryOp.axesUnder t.signature (ops ++ [op]) := by
    intro hg hi hs
    rw [(attributes_unary h).1, hs, ha.shape, hgrad hg, List.any_append, hgrad hg, List.any_cons,
      hi, UnaryOp.axesUnder, UnaryOp.axesUnder, List.filter_append, List.filter_singleton, hg]
    simp
  cases op with
  | indexed is =>
    rw [(attributes_unary h).1, List.any_append]
    simp [UnaryOp.shape, UnaryOp.isIndexing]
  | grad =>
    refine hgradient rfl rfl ?_
    show a.shape ++ [a.signature.gdim] = a.shape ++ [t.signature.gdim]
    rw [Signature.gdim, Signature.gdim, hdomain]
  | referenceGrad =>
    refine hgradient rfl rfl ?_
    show a.shape ++ [a.signature.tdim] = a.shape ++ [t.signature.tdim]
    rw [Signature.tdim, Signature.tdim, hdomain]
  | restricted | averaged | spatialDerivative => exact hplain rfl rfl rfl
  | math | abs | indexSum | componentTensor | labelled => cases hw.modifier

/-- The free indices under one more modifier. -/
theorem Wrapped.free_apply (ha : Wrapped t ops a) (hw : Wraps t op)
    (hgrad : op.isGradient → ops.any UnaryOp.isIndexing = false) (h : op.apply a = .ok r)
    (x : FreeIndex) : x ∈ r.free ↔ ∃ f ∈ ops ++ [op], x ∈ f.introduced
      { t.signature with shape := UnaryOp.axesUnder t.signature (ops ++ [op]) } := by
  have hold : ∀ f ∈ ops,
      f.introduced { t.signature with shape := UnaryOp.axesUnder t.signature ops } =
        f.introduced { t.signature with shape := UnaryOp.axesUnder t.signature (ops ++ [op]) } := by
    intro f hf
    by_cases hg : op.isGradient
    · -- under a gradient nothing is indexed, so the new axis is seen by no modifier
      have hi : f.isIndexing = false := by
        simpa using List.any_eq_false.mp (hgrad hg) f hf
      exact UnaryOp.introduced_of_not_isIndexing hi rfl
    · rw [UnaryOp.axesUnder_concat _ (by simpa using hg)]
  have hnew : op.introduced a.signature =
      op.introduced { t.signature with shape := UnaryOp.axesUnder t.signature (ops ++ [op]) } := by
    rw [ha.introduced hw h]
    by_cases hg : op.isGradient
    · have hi : op.isIndexing = false := by
        cases op <;> first | rfl | cases hg
      exact UnaryOp.introduced_of_not_isIndexing hi rfl
    · rw [UnaryOp.axesUnder_concat _ (by simpa using hg)]
  rw [mem_free_unary h, UnaryOp.bound_of_isModifier hw.modifier, ha.free, hnew]
  constructor
  · rintro (⟨⟨f, hf, hx⟩, -⟩ | hx)
    · exact ⟨f, List.mem_append_left _ hf, by rwa [← hold f hf]⟩
    · exact ⟨op, List.mem_append_right _ (List.mem_singleton.mpr rfl), hx⟩
  · rintro ⟨f, hf, hx⟩
    rcases List.mem_append.mp hf with hf | hf
    · exact .inl ⟨⟨f, hf, by rwa [hold f hf]⟩, List.not_mem_nil⟩
    · obtain rfl := List.mem_singleton.mp hf
      exact .inr hx

/-- One more modifier on top of a wrapped terminal. -/
theorem Wrapped.apply (ha : Wrapped t ops a) (hw : Wraps t op)
    (hgrad : op.isGradient → ops.any UnaryOp.isIndexing = false) (h : op.apply a = .ok r) :
    Wrapped t (ops ++ [op]) r := by
  have hnode := hw.node ha.varying ha.cellwise h
  -- the modifier stays a node, so its terminal, domain and constancy are those beneath
  refine ⟨canonical_unary ha.canonical h, ?_, ?_, ?_, ?_, ha.shape_apply hw hgrad h,
    ha.free_apply hw hgrad h⟩
  · rw [hnode]
    exact ha.core
  · rw [hnode]
    rfl
  · rw [hnode, domain?, signature_unary]
    exact ha.domain
  · rw [hnode, isCellwiseConstant, signature_unary]
    exact ha.cellwise

/-- Applying one modifier more, at the end. -/
theorem applyAll_concat :
    applyAll (ops ++ [op]) a = .ok r ↔ ∃ b, applyAll ops a = .ok b ∧ op.apply b = .ok r := by
  rw [applyAll, List.foldlM_append, bind_eq_ok]
  simp only [List.foldlM_cons, List.foldlM_nil, bind_pure]
  rfl

/-- **The attributes of a terminal under modifiers.** -/
theorem wrapped_applyAll (hconst : (leaf t).isConstantValue = false)
    (hw : ∀ op ∈ ops, Wraps t op) (hgrad : UnaryOp.gradientOfIndexed ops = false)
    (h : applyAll ops (leaf t) = .ok r) : Wrapped t ops r := by
  -- from the terminal outwards
  induction ops using List.reverseRecOn generalizing r with
  -- the terminal itself: it is no literal, so it has no free indices
  | nil =>
    cases h
    have hfree : t.free = [] := by
      cases t with
      | argument | coefficient | geometry => rfl
      | literal | zero => cases hconst
    have hcan : CanonicalTerminal t := by
      cases t with
      | argument | coefficient | geometry => trivial
      | literal | zero => cases hconst
    refine ⟨.leaf hcan, rfl, hconst, ?_, ?_, ?_, fun x => ?_⟩
    · rw [domain?, signature_leaf]
      rfl
    · rw [isCellwiseConstant, signature_leaf]
      rfl
    · rw [shape_leaf, UnaryOp.axesUnder]
      exact (List.append_nil _).symm
    · rw [free_leaf, hfree]
      simp
  | append_singleton ops op ih =>
    obtain ⟨a, ha, hr⟩ := applyAll_concat.mp h
    obtain ⟨hinner, hop⟩ := UnaryOp.gradientOfIndexed_concat hgrad
    -- the chain beneath, then its last modifier
    have hwrapped := ih (fun f hf => hw f (List.mem_append_left _ hf)) hinner ha
    have hlast := hw op (List.mem_append_right _ (List.mem_singleton.mpr rfl))
    exact hwrapped.apply hlast hop hr

/-! ## The modifiers of a chain -/

/-- A terminal under modifiers, innermost first. -/
inductive ChainOf (t : Terminal R) : List UnaryOp → Expr R → Prop
  | terminal : ChainOf t [] (leaf t)
  | wrap {ops : List UnaryOp} {op : UnaryOp} {a : Expr R} (ha : ChainOf t ops a)
      (hop : op.isModifier) : ChainOf t (ops ++ [op]) (unary op a)

omit [Scalar R] in
/-- What is read off an expression is the chain that it is, beneath the modifiers read before. -/
theorem chainOf_chainBelow {outer : List UnaryOp} (h : chainBelow outer e = some (ops, t)) :
    ∃ inner, ops = inner ++ outer ∧ ChainOf t inner e := by
  induction e generalizing outer with
  | leaf s =>
    rw [chainBelow, Option.some.injEq, Prod.mk.injEq] at h
    obtain ⟨rfl, rfl⟩ := h
    exact ⟨[], rfl, .terminal⟩
  | unary op a ih =>
    rw [chainBelow] at h
    split at h
    · next hop =>
      -- this modifier stands over those still to be read
      obtain ⟨inner, rfl, hchain⟩ := ih h
      exact ⟨inner ++ [op], by simp, hchain.wrap hop⟩
    · cases h
  | binary | listTensor => cases h

omit [Scalar R] in
theorem chainOf_of_chain? (h : e.chain? = some (ops, t)) : ChainOf t ops e := by
  obtain ⟨inner, rfl, hchain⟩ := chainOf_chainBelow h
  rwa [List.append_nil]

omit [Scalar R] in
/-- Modifiers do not change whether a value is constant on each cell. -/
theorem ChainOf.cellwise (h : ChainOf t ops e) : e.isCellwiseConstant = t.isCellwiseConstant := by
  induction h with
  | terminal =>
    rw [isCellwiseConstant, signature_leaf]
    rfl
  | wrap _ _ ih =>
    rw [isCellwiseConstant, signature_unary]
    exact ih

omit [Scalar R] in
/-- A chain without modifiers is its terminal. -/
theorem ChainOf.eq_leaf (h : ChainOf t ops e) (hnil : ops = []) : e = leaf t := by
  cases h with
  | terminal => rfl
  | wrap => exact absurd hnil (List.append_ne_nil_of_right_ne_nil _ (List.cons_ne_nil _ _))

/-- A constant has no modifiers. -/
theorem ChainOf.varying (h : ChainOf t ops e) (hcan : Canonical e) :
    ops = [] ∨ (leaf t).isConstantValue = false := by
  induction h with
  | terminal => exact .inl rfl
  | @wrap ops op a ha hop ih =>
    cases hcan with
    | unary hca happly =>
      right
      rcases ih hca with hnil | h
      -- the innermost modifier was not folded, so its terminal is no constant
      · rw [← ha.eq_leaf hnil, operand_not_constant hop happly]
      · exact h

/-- A node over an operand says that its modifier does not fold there. -/
theorem wraps_of_node (hop : op.isModifier) (hcell : a.isCellwiseConstant = t.isCellwiseConstant)
    (h : op.apply a = .ok (unary op a)) : Wraps t op := by
  -- a derivative that was not folded to zero has an operand that varies
  have hderived : Derived op a (unary op a) → t.isCellwiseConstant = false := by
    intro hr
    cases hr with
    | node ha => rwa [← hcell]
  refine ⟨hop, ?_, ?_, fun hlayer => ?_⟩
  · rintro rfl
    exact (indexed_node h).1 rfl
  · rintro rfl
    exact (derivative_node h).1 rfl
  · cases op with
    | grad => exact hderived (gradient_built h).2
    | referenceGrad => exact hderived (referenceGradient_built h).2
    | spatialDerivative is =>
      obtain ⟨-, -, -, -, hr⟩ := derivative_node h
      exact hderived hr
    | math | abs | indexSum | indexed | componentTensor | restricted | averaged | labelled =>
      cases hlayer

/-- **A chain is its terminal under its modifiers.** -/
theorem ChainOf.applyAll (h : ChainOf t ops e) (hcan : Canonical e) :
    applyAll ops (leaf t) = .ok e ∧ ∀ op ∈ ops, Wraps t op := by
  induction h with
  | terminal => exact ⟨rfl, fun _ hop => absurd hop List.not_mem_nil⟩
  | @wrap ops op a ha hop ih =>
    cases hcan with
    | unary hca happly =>
      -- the chain beneath is built first
      obtain ⟨hall, hw⟩ := ih hca
      refine ⟨applyAll_concat.mpr ⟨a, hall, happly⟩, fun f hf => ?_⟩
      rcases List.mem_append.mp hf with hf | hf
      · exact hw f hf
      · obtain rfl := List.mem_singleton.mp hf
        exact wraps_of_node hop ha.cellwise happly

/-! ## The balanced chain -/

omit [Scalar R] in
/-- A chain consists of modifiers. -/
theorem ChainOf.isModifier (h : ChainOf t ops e) : ∀ op ∈ ops, op.isModifier := by
  induction h with
  | terminal => exact fun _ hop => absurd hop List.not_mem_nil
  | wrap _ hop ih =>
    intro f hf
    rcases List.mem_append.mp hf with hf | hf
    · exact ih f hf
    · obtain rfl := List.mem_singleton.mp hf
      exact hop

/-- Applying modifiers to a modified terminal gives one. -/
theorem chain_applyAll (hops : ∀ op ∈ ops, op.isModifier) (ha : a.isModifiedTerminal)
    (h : Expr.applyAll ops a = .ok r) : r.isModifiedTerminal := by
  induction ops using List.reverseRecOn generalizing r with
  | nil =>
    cases h
    exact ha
  | append_singleton ops op ih =>
    obtain ⟨b, hb, hr⟩ := applyAll_concat.mp h
    have hchain := ih (fun f hf => hops f (List.mem_append_left _ hf)) hb
    exact chain_unary (hops op (List.mem_append_right _ (List.mem_singleton.mpr rfl))) hchain hr

/-- The balanced chain is a chain. -/
theorem chain_balance (hm : e.isModifiedTerminal) (h : balance e = .ok r) :
    r.isModifiedTerminal := by
  have hself : e = r → r.isModifiedTerminal := by
    rintro rfl
    exact hm
  unfold balance at h
  split at h
  · exact hself (Except.ok.inj h)
  · next ops t hchain =>
    have hmod := (chainOf_of_chain? hchain).isModifier
    split at h
    · exact hself (Except.ok.inj h)
    · dsimp only at h
      split at h
      · exact hself (Except.ok.inj h)
      -- it is built up again from its modifiers, in another order
      · exact chain_applyAll (fun op hop => hmod op (UnaryOp.mem_mergeSort_layerLE.mp hop)) rfl h

omit [Scalar R] in
theorem axesUnder_mergeSort (s : Signature) (h : ∀ op ∈ ops, op.isModifier) :
    UnaryOp.axesUnder s (ops.mergeSort UnaryOp.layerLE) = UnaryOp.axesUnder s ops := by
  rw [UnaryOp.axesUnder, UnaryOp.axesUnder, UnaryOp.filter_isGradient_mergeSort h]

/-- What balancing keeps of a chain. -/
structure Balanced (e r : Expr R) : Prop where
  canonical : Canonical r
  core : r.core = e.core
  constant : r.isConstantValue = e.isConstantValue
  shape : r.shape = e.shape
  free : r.free = e.free

/-- Sorting the modifiers changes neither the shape nor the free indices. -/
theorem Wrapped.balanced (hmod : ∀ op ∈ ops, op.isModifier) (h : Wrapped t ops e)
    (h' : Wrapped t (ops.mergeSort UnaryOp.layerLE) r) : Balanced e r := by
  -- the two chains have the same modifiers
  have hany : (ops.mergeSort UnaryOp.layerLE).any UnaryOp.isIndexing =
      ops.any UnaryOp.isIndexing := by
    rw [Bool.eq_iff_iff, List.any_eq_true, List.any_eq_true]
    simp only [UnaryOp.mem_mergeSort_layerLE]
  refine ⟨h'.canonical, ?_, ?_, ?_, ?_⟩
  · rw [h'.core, h.core]
  · rw [h'.varying, h.varying]
  · rw [h'.shape, h.shape, hany, axesUnder_mergeSort _ hmod]
  · refine h'.canonical.sorted.eq_of_mem_iff h.canonical.sorted fun x => ?_
    rw [h'.free, h.free, axesUnder_mergeSort _ hmod]
    simp only [UnaryOp.mem_mergeSort_layerLE]

/-- A chain that balancing sorts: its modifiers do not fold, and none of its gradients is one
of something indexed. -/
structure Sortable (t : Terminal R) (ops : List UnaryOp) (e : Expr R) : Prop where
  chain : ChainOf t ops e
  varying : (leaf t).isConstantValue = false
  wraps : ∀ op ∈ ops, Wraps t op
  plain : UnaryOp.gradientOfIndexed ops = false
  applied : Expr.applyAll ops (leaf t) = .ok e
  balanced : balance e = Expr.applyAll (ops.mergeSort UnaryOp.layerLE) (leaf t)

/-- **What balancing does**: it leaves an expression as it is, or sorts its modifiers. -/
theorem balance_cases (hcan : Canonical e) : balance e = .ok e ∨ ∃ t ops, Sortable t ops e := by
  cases hchain : e.chain? with
  | none => exact .inl (by simp only [balance, hchain])
  | some found =>
    obtain ⟨ops, t⟩ := found
    have hof := chainOf_of_chain? hchain
    by_cases hgrad : UnaryOp.gradientOfIndexed ops
    · exact .inl (by simp only [balance, hchain, hgrad, if_true])
    · by_cases hsorted : ops.mergeSort UnaryOp.layerLE = ops
      · exact .inl (by simp only [balance, hchain, hgrad, hsorted]; simp)
      · -- a chain over something constant would have been folded
        rcases hof.varying hcan with rfl | hconst
        · exact absurd List.mergeSort_nil hsorted
        obtain ⟨hall, hw⟩ := hof.applyAll hcan
        refine .inr ⟨t, ops, hof, hconst, hw, by simpa using hgrad, hall, ?_⟩
        simp only [balance, hchain, hgrad, hsorted]
        simp

/-- The sorted modifiers do not fold. -/
theorem Sortable.wraps_sorted (h : Sortable t ops e) :
    ∀ op ∈ ops.mergeSort UnaryOp.layerLE, Wraps t op :=
  fun op hop => h.wraps op (UnaryOp.mem_mergeSort_layerLE.mp hop)

/-- **The balanced chain has the shape and the free indices of the chain.** -/
theorem balance_chain (hcan : Canonical e) (h : balance e = .ok r) : Balanced e r := by
  rcases balance_cases hcan with heq | ⟨t, ops, hs⟩
  · rw [heq] at h
    cases h
    exact ⟨hcan, rfl, rfl, rfl, rfl⟩
  · rw [hs.balanced] at h
    have hmod := hs.chain.isModifier
    have hsorted := wrapped_applyAll hs.varying hs.wraps_sorted
      (UnaryOp.gradientOfIndexed_mergeSort hmod) h
    exact (wrapped_applyAll hs.varying hs.wraps hs.plain hs.applied).balanced hmod hsorted

end Wrapped

end Expr

end WeakForm
