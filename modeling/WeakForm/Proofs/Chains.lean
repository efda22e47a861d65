import WeakForm.Expr.Balance
import WeakForm.Expr.Substitution
import WeakForm.Proofs.Canonical
import WeakForm.Proofs.Outcome
import WeakForm.Proofs.Semantics

/-!
# Modifier chains

A chain is a terminal under modifiers. Its indices stand in its indexings and in the
directions of its derivatives, and nothing binds them: a renaming replaces them one by
one. Where the indices are all fixed, a chain at a component is a *scalar leaf*, and the
values of the scalar leaves give every chain a value.

* `mapIndices` — the chain with every index replaced;
* `rename_chain` — what the renaming of a chain returns;
* `leafAt` — the scalar leaf of a chain at a component and positions;
* `Model.withLeaves` — the model that is given by values of the scalar leaves;
* `value_chain`, `value_mapIndices` — in it, a chain has the value of its leaf, also where
  its indices are replaced.
-/

namespace WeakForm

/-- The operator with every index replaced. -/
def UnaryOp.mapIndices (f : Index → Index) : UnaryOp → UnaryOp
  | .indexed is => .indexed (is.map f)
  | .spatialDerivative is => .spatialDerivative (is.map f)
  | op => op

@[simp] theorem UnaryOp.mapIndices_id (op : UnaryOp) : op.mapIndices id = op := by
  cases op <;> simp [mapIndices]

/-- Only an operator's entries are replaced. -/
theorem UnaryOp.mapIndices_congr {f g : Index → Index} {op : UnaryOp}
    (h : op.entries.map f = op.entries.map g) : op.mapIndices f = op.mapIndices g := by
  cases op with
  | indexed is => exact congrArg UnaryOp.indexed h
  | spatialDerivative is => exact congrArg UnaryOp.spatialDerivative h
  | math | abs | indexSum | componentTensor | restricted | grad | referenceGrad | averaged
    | labelled => rfl

theorem UnaryOp.bound_of_isModifier {op : UnaryOp} (h : op.isModifier) : op.bound = [] := by
  cases op <;> first | rfl | cases h

theorem Renaming.onOp_eq (ρ : Renaming) (op : UnaryOp) : ρ.onOp op = op.mapIndices ρ.onIndex := by
  cases op <;> rfl

/-- A renaming that replaces no free index of an expression finds none of them. -/
theorem Renaming.find?_eq_none {free : FreeIndices} {i : IndexId} (ρ : Renaming)
    (h : ρ.touches free = false) (hi : free.has i) : ρ.find? i = none := by
  obtain ⟨d, hd⟩ := FreeIndices.has_iff.mp hi
  have := List.any_eq_false.mp h _ hd
  simpa using this

/-- The position of an index, as an index. -/
def Env.fix (σ : Env) (j : Index) : Index :=
  .fixed (σ.resolve j)

namespace Expr

variable {R : Type}

/-- The chain with every index replaced. -/
def mapIndices (f : Index → Index) : Expr R → Expr R
  | unary op a => unary (op.mapIndices f) (mapIndices f a)
  | e => e

/-! ## Replacing indices -/

section MapIndices

variable {f g : Index → Index} {e : Expr R}

/-- Replacing indices twice is replacing them once. -/
theorem mapIndices_mapIndices (f g : Index → Index) (e : Expr R) :
    (e.mapIndices f).mapIndices g = e.mapIndices (g ∘ f) := by
  induction e with
  | leaf | binary | listTensor => rfl
  | unary op a ih =>
    rw [mapIndices, mapIndices, mapIndices, ih]
    cases op <;> simp [UnaryOp.mapIndices]

/-- A chain with all indices as they are is the chain. -/
theorem mapIndices_id (e : Expr R) : e.mapIndices id = e := by
  induction e with
  | leaf | binary | listTensor => rfl
  | unary op a ih =>
    rw [mapIndices, ih, UnaryOp.mapIndices_id]

/-- A chain stays one. -/
theorem isModifiedTerminal_mapIndices (f : Index → Index) (e : Expr R) :
    (e.mapIndices f).isModifiedTerminal = e.isModifiedTerminal := by
  induction e with
  | leaf | binary | listTensor => rfl
  | unary op a ih =>
    rw [mapIndices, isModifiedTerminal, isModifiedTerminal, ih]
    cases op <;> rfl

theorem isConstantValue_mapIndices (f : Index → Index) (e : Expr R) :
    (e.mapIndices f).isConstantValue = e.isConstantValue := by
  cases e <;> rfl

/-- The domain does not depend on the indices. -/
theorem domain?_mapIndices (f : Index → Index) (e : Expr R) :
    (e.mapIndices f).domain? = e.domain? := by
  induction e with
  | leaf | binary | listTensor => rfl
  | unary op a ih => simpa [mapIndices, domain?, UnaryOp.signature] using ih

/-- Nor does constancy on each cell. -/
theorem isCellwiseConstant_mapIndices (f : Index → Index) (e : Expr R) :
    (e.mapIndices f).isCellwiseConstant = e.isCellwiseConstant := by
  induction e with
  | leaf | binary | listTensor => rfl
  | unary op a ih => simpa [mapIndices, isCellwiseConstant, UnaryOp.signature] using ih

variable [Scalar R]

/-- Zero is a constant value. -/
theorem isConstantValue_of_isZero (h : e.isZero) : e.isConstantValue := by
  unfold isZero at h
  split at h
  · rfl
  · rfl
  · cases h

end MapIndices

/-! ## Operands of a chain -/

section Operands

variable {op : UnaryOp} {a r : Expr R} {i : IndexId}

/-- Constants stand on no domain. -/
theorem domain?_of_isConstantValue (h : a.isConstantValue) : a.domain? = none := by
  unfold isConstantValue at h
  split at h
  · rw [domain?, signature_leaf]
    rfl
  · rw [domain?, signature_leaf]
    rfl
  · cases h

/-- A node is not its own operand. -/
theorem ne_operand (op : UnaryOp) (a : Expr R) : unary op a ≠ a := by
  intro h
  have := congrArg size h
  rw [size_unary] at this
  exact Nat.succ_ne_self _ this

/-! What could have returned its operand did not, where it is a node over it. -/

/-- An indexing that is not folded has entries, one for each axis. -/
theorem indexed_node [Scalar R] {is : List Index} (h : a.index is = .ok (unary (.indexed is) a)) :
    is ≠ [] ∧ is.length = a.rank ∧ checkIndices a is a.shape 0 [] = .ok () ∧
      ZeroOr (.indexed is) a (unary (.indexed is) a) := by
  obtain ⟨hl, ⟨-, heq⟩ | ⟨hne, hcheck, hr⟩⟩ := index_built h
  · exact absurd heq (ne_operand _ a)
  · exact ⟨hne, hl, hcheck, hr⟩

/-- A component tensor that is not folded has axes, and a scalar operand. -/
theorem tensor_node [Scalar R] {ids : List IndexId}
    (h : a.tensor (ids.map .free) = .ok (unary (.componentTensor ids) a)) :
    ids ≠ [] ∧ a.shape = [] ∧ tensorAxes a (ids.map .free) a.free = .ok ids ∧
      ZeroOr (.componentTensor ids) a (unary (.componentTensor ids) a) := by
  obtain ⟨hs, ⟨-, heq⟩ | ⟨hne, haxes, hr⟩⟩ := tensor_ids_built h
  · exact absurd heq (ne_operand _ a)
  · exact ⟨hne, hs, haxes, hr⟩

/-- A derivative that is not folded has directions of its domain. -/
theorem derivative_node {is : List Index}
    (h : a.derivative is = .ok (unary (.spatialDerivative is) a)) :
    is ≠ [] ∧ ∃ d, a.domain? = some d ∧ checkDirections a d.gdim is = .ok () ∧
      Derived (.spatialDerivative is) a (unary (.spatialDerivative is) a) := by
  rcases derivative_built h with ⟨-, heq⟩ | hnode
  · exact absurd heq (ne_operand _ a)
  · exact hnode

/-- An operator that was put on top of one operand is put on top of another. -/
theorem Derived.node_of {op' : UnaryOp} {a' : Expr R} (h : Derived op a (unary op a))
    (hc : a'.isCellwiseConstant = a.isCellwiseConstant) (hr : Derived op' a' r) :
    r = unary op' a' := by
  cases h with
  | node ha =>
    cases hr with
    | zero ha' =>
      rw [hc, ha] at ha'
      cases ha'
    | node => rfl

/-- A constant takes no modifier. -/
theorem operand_not_constant [Scalar R] (hop : op.isModifier) (h : op.apply a = .ok (unary op a)) :
    a.isConstantValue = false := by
  rw [← Bool.not_eq_true]
  intro hc
  -- a derivative needs a domain, and a constant has none
  have hdomain := domain?_of_isConstantValue hc
  cases op with
  | indexed is =>
    obtain ⟨hne, hl, -, hr⟩ := indexed_node h
    cases hr with
    | node ha =>
      -- a literal that is not zero has no axes
      unfold isConstantValue at hc
      split at hc
      · rw [rank, shape_leaf_literal] at hl
        exact hne (List.eq_nil_of_length_eq_zero hl)
      · cases ha
      · cases hc
  | restricted side =>
    have heq : a = unary (.restricted side) a := (if_pos hc).symm.trans (Except.ok.inj h)
    rw [heq] at hc
    cases hc
  | averaged region =>
    have heq : a = unary (.averaged region) a := (if_pos hc).symm.trans (Except.ok.inj h)
    rw [heq] at hc
    cases hc
  | grad =>
    have := (gradient_built h).1
    rw [hdomain] at this
    cases this
  | referenceGrad =>
    have := (referenceGradient_built h).1
    rw [hdomain] at this
    cases this
  | spatialDerivative is =>
    obtain ⟨-, d, hd, -⟩ := derivative_node h
    rw [hdomain] at hd
    cases hd
  | math | abs | indexSum | componentTensor | labelled => cases hop

/-- Under a modifier, nothing is zero. -/
theorem operand_not_zero [Scalar R] (hop : op.isModifier) (h : op.apply a = .ok (unary op a)) :
    a.isZero = false := by
  have hconst := operand_not_constant hop h
  rw [← Bool.not_eq_true] at hconst ⊢
  exact fun hz => hconst (isConstantValue_of_isZero hz)

end Operands

/-! ## Renaming a chain -/

section Rename

variable [Scalar R] {f g : Index → Index} {e r : Expr R}

/-- Only the free indices of a chain count for the replacement of its indices. -/
theorem mapIndices_congr (hc : Canonical e) (hm : e.isModifiedTerminal)
    (hfree : ∀ i, e.free.has i → f (.free i) = g (.free i))
    (hfixed : ∀ p, f (.fixed p) = g (.fixed p)) : e.mapIndices f = e.mapIndices g := by
  induction hc with
  | leaf | binary | listTensor => rfl
  | @unary op a hc happly ih =>
    rw [isModifiedTerminal, Bool.and_eq_true] at hm
    have hbound := UnaryOp.bound_of_isModifier hm.1
    -- from the terminal outwards
    have ha := ih hm.2 fun i hi => hfree i (has_of_operand happly hi (by simp [hbound]))
    -- entries of a modifier are free in the chain
    have hentries : op.entries.map f = op.entries.map g := by
      refine List.map_congr_left fun j hj => ?_
      cases j with
      | fixed p => exact hfixed p
      | free i => exact hfree i (has_of_entry happly hj)
    rw [mapIndices, mapIndices, ha, UnaryOp.mapIndices_congr hentries]

/-- A modifier over the renamed operand is built as a node, as over the operand. -/
theorem apply_mapIndices {op : UnaryOp} {a : Expr R} (hop : op.isModifier)
    (h : op.apply a = .ok (unary op a)) (f : Index → Index)
    (hr : (op.mapIndices f).apply (a.mapIndices f) = .ok r) :
    r = unary (op.mapIndices f) (a.mapIndices f) := by
  -- what depends on the operand being constant does so after renaming too
  have hconst : (a.mapIndices f).isConstantValue = false := by
    rw [isConstantValue_mapIndices]
    exact operand_not_constant hop h
  have hzero : (a.mapIndices f).isZero = false := by
    rw [← Bool.not_eq_true] at hconst ⊢
    exact fun h => hconst (isConstantValue_of_isZero h)
  have hcell := isCellwiseConstant_mapIndices f a
  cases op with
  | indexed is =>
    -- without indices nothing would be built in the first place
    obtain ⟨-, ⟨hnil, -⟩ | ⟨-, -, hz⟩⟩ := index_built hr
    · exact absurd (List.map_eq_nil_iff.mp hnil) (indexed_node h).1
    · cases hz with
      | zero ha => exact absurd ha (by rw [hzero]; decide)
      | node => rfl
  | restricted side =>
    exact (Except.ok.inj hr).symm.trans (if_neg (by rw [hconst]; decide))
  | averaged region =>
    exact (Except.ok.inj hr).symm.trans (if_neg (by rw [hconst]; decide))
  | grad => exact (gradient_built h).2.node_of hcell (gradient_built hr).2
  | referenceGrad =>
    exact (referenceGradient_built h).2.node_of hcell (referenceGradient_built hr).2
  | spatialDerivative is =>
    obtain ⟨hne, -, -, -, hd⟩ := derivative_node h
    rcases derivative_built hr with ⟨hnil, -⟩ | ⟨-, -, -, -, hd'⟩
    · exact absurd (List.map_eq_nil_iff.mp hnil) hne
    · exact hd.node_of hcell hd'
  | math | abs | indexSum | componentTensor | labelled => cases hop

/-- Renaming items is renaming each of them. -/
theorem renameAll_eq_mapM (ρ : Renaming) (items : List (Expr R)) :
    renameAll ρ items = items.mapM (rename ρ) := by
  induction items with
  | nil => rw [renameAll, List.mapM_nil]; rfl
  | cons item items ih => rw [renameAll, List.mapM_cons, ih]

/-- **A chain is renamed index by index.** -/
theorem rename_chain {ρ : Renaming} (hc : Canonical e) (hm : e.isModifiedTerminal)
    (hz : e.isZero = false) (h : rename ρ e = .ok r) : r = e.mapIndices ρ.onIndex := by
  induction hc generalizing r with
  | binary | listTensor => cases hm
  | @leaf t ht =>
    -- terminals other than zero have no index
    rw [rename.eq_def] at h
    split at h
    · cases t with
      | zero => cases hz
      | argument | coefficient | geometry | literal => exact (Except.ok.inj h).symm
    · exact (Except.ok.inj h).symm
  | @unary op a hc happly ih =>
    rw [rename.eq_def] at h
    split at h
    -- the modifier is applied to the renamed chain beneath
    · rw [isModifiedTerminal, Bool.and_eq_true] at hm
      have hinside : ρ.inside op = ρ := by
        cases op <;> first | rfl | cases hm.1
      have hza := operand_not_zero hm.1 happly
      dsimp only at h
      rw [hinside, bind_eq_ok] at h
      obtain ⟨a', ha, h⟩ := h
      rw [ih hm.2 hza ha, Renaming.onOp_eq] at h
      exact apply_mapIndices hm.1 happly _ h
    · next hn =>
      -- no index of the chain is replaced
      have hid : (unary op a).mapIndices ρ.onIndex = (unary op a).mapIndices id := by
        refine mapIndices_congr (.unary hc happly) hm (fun i hi => ?_) fun _ => rfl
        rw [Renaming.onIndex, ρ.find?_eq_none (by simpa using hn) hi]
        rfl
      rw [hid, mapIndices_id]
      exact (Except.ok.inj h).symm

end Rename

/-! ## Scalar leaves -/

/-- The scalar leaf of a chain: its indices are fixed, then its axes indexed. -/
def leafAt (e : Expr R) (c : List Nat) (σ : Env) : Expr R :=
  if c = [] then e.mapIndices σ.fix else unary (.indexed (c.map .fixed)) (e.mapIndices σ.fix)

end Expr

/-- The model in which the values of modified terminals are those of their scalar leaves. -/
def Model.withLeaves {R A : Type} (M : Model R A) (leaves : Expr R → A) : Model R A where
  number := M.number
  quotient := M.quotient
  power := M.power
  math := M.math
  abs := M.abs
  terminal t c := leaves ((Expr.leaf t).leafAt c fun _ => 0)
  modified op a _ c σ := leaves ((Expr.unary op a).leafAt c σ)

namespace Model

variable {R : Type} [Scalar R]

/-- Other leaves leave an exact model exact. -/
theorem Exact.withLeaves {A : Type} [CommRing A] {M : Model R A} (hM : M.Exact)
    (leaves : Expr R → A) : (M.withLeaves leaves).Exact where
  ofInt := hM.ofInt
  add := hM.add
  mul := hM.mul
  isZero := hM.isZero
  isOne := hM.isOne

/-- They leave functions exact. -/
theorem ExactFunctions.withLeaves {A : Type} [CommRing A] {M : Model R A} (hf : M.ExactFunctions)
    (leaves : Expr R → A) : (M.withLeaves leaves).ExactFunctions where
  power_one := hf.power_one
  power_int := hf.power_int
  pow := hf.pow
  math := hf.math
  abs_int := hf.abs_int
  abs := hf.abs

/-- They leave quotients exact. -/
theorem ExactQuotients.withLeaves {K : Type} [Field K] {M : Model R K} (hq : M.ExactQuotients)
    (leaves : Expr R → K) : (M.withLeaves leaves).ExactQuotients where
  quotient := hq.quotient
  div := hq.div

end Model

namespace Expr

section Leaves

variable {R A : Type} [Scalar R] [CommRing A] {M : Model R A} {leaves : Expr R → A} {e : Expr R}

/-- **A chain has the value of its scalar leaf.** -/
theorem value_chain (hc : Canonical e) (hm : e.isModifiedTerminal)
    (hconst : e.isConstantValue = false) {c : List Nat} (hl : c.length = e.rank) (σ : Env) :
    e.value (M.withLeaves leaves) c σ = leaves (e.leafAt c σ) := by
  induction hc generalizing c with
  | binary | listTensor => cases hm
  | @leaf t ht =>
    -- constant values are left out by assumption
    cases t with
    | literal | zero => cases hconst
    | argument | coefficient | geometry => rfl
  | @unary op a hc happly ih =>
    rw [isModifiedTerminal, Bool.and_eq_true] at hm
    cases op with
    -- an index in front of a terminal that is not constant
    | indexed is =>
      obtain ⟨hne, hlen, -⟩ := indexed_node happly
      have hnil : c = [] := by
        rw [rank, shape_unary] at hl
        exact List.eq_nil_of_length_eq_zero hl
      have hentries : (is.map σ.resolve).length = a.rank := by rw [List.length_map, hlen]
      rw [value_unary_indexed, ih hm.2 (operand_not_constant hm.1 happly) hentries,
        leafAt, leafAt, if_neg (by simpa using hne), if_pos hnil, mapIndices,
        UnaryOp.mapIndices, List.map_map]
      rfl
    | restricted | grad | referenceGrad | spatialDerivative | averaged => rfl
    | math | abs | indexSum | componentTensor | labelled => cases hm.1

/-- A chain whose indices are replaced, at positions that agree with the replacement. -/
theorem value_mapIndices (hm : e.isModifiedTerminal) {f : Index → Index} {σ τ : Env}
    (hf : ∀ j, σ.resolve (f j) = τ.resolve j) (c : List Nat) :
    (e.mapIndices f).value (M.withLeaves leaves) c σ = e.value (M.withLeaves leaves) c τ := by
  have hmap : ∀ is : List Index, (is.map f).map σ.resolve = is.map τ.resolve := fun is => by
    rw [List.map_map]
    exact List.map_congr_left fun j _ => hf j
  induction e generalizing c with
  | binary | listTensor => cases hm
  | leaf t => cases t <;> rfl
  | unary op a ih =>
    rw [isModifiedTerminal, Bool.and_eq_true] at hm
    -- the leaf is told by the positions of the entries
    have hleaf : ((unary op a).mapIndices f).leafAt c σ = (unary op a).leafAt c τ := by
      have hfix : σ.fix ∘ f = τ.fix := funext fun j => congrArg Index.fixed (hf j)
      rw [leafAt, leafAt, mapIndices_mapIndices, hfix]
    rw [mapIndices] at hleaf ⊢
    cases op with
    | indexed is => rw [UnaryOp.mapIndices, value_unary_indexed, value_unary_indexed, hmap, ih hm.2]
    | restricted | grad | referenceGrad | spatialDerivative | averaged =>
      exact congrArg leaves hleaf
    | math | abs | indexSum | componentTensor | labelled => cases hm.1

end Leaves

end Expr

end WeakForm
