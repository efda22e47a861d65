import WeakForm.Proofs.Monomials
import WeakForm.Proofs.Typing

/-!
# The components of factors

A factor of a monomial is a component of its function: it has one index for every axis of the
function, fixed indices lie on their axes, and fixed directions in the space that the function
lives in. A monomial of a scalar integrand has no open slots.

Extraction sees to that where it fills slots, and where it indexes a single function. But an
indexing without slots sets the components of all factors, a product forgets the slots of its
factors, and slots are filled by name. So a factor with axes must be multiplied by numbers only
and have no open slots; an index must range over one dimension, where it is free and is summed
over inside or a slot; and what is derived must live in one space.

* `Factor.IsComponent` — a component of a function;
* `Expr.sums`, `Expr.slots`, `Expr.AxesApart` — what is asked of every node;
* `Extracted.functionOf`, `Extracted.slotted` — the functions of a monomial, and its slots;
* `Monomial.Fits`, `Extracted.fits` — what is known of the indices, kept by every step;
* `monomials_isComponent` — a scalar integrand has no open slots, and its factors are components;
* `monomials_scaledVector` — a scalar function that is given a component.
-/

namespace WeakForm

variable {R : Type}

/-! ## Components -/

namespace Factor

/-- One index for every axis of the function; fixed ones lie on their axes, and fixed
directions in the space of the function. -/
structure IsComponent (f : Factor R) : Prop where
  count : f.components.length = f.function.rank
  components : ∀ p d, (.fixed p, d) ∈ f.components.zip f.function.shape → p < d
  directions : ∃ d, f.function.domain? = some d ∧ ∀ p, .fixed p ∈ f.derivatives → p < d.gdim

/-- Fixed indices lie on their axes, and fixed directions in the space. -/
structure Bounded (f : Factor R) : Prop where
  components : ∀ p d, (.fixed p, d) ∈ f.components.zip f.function.shape → p < d
  directions : ∀ p, .fixed p ∈ f.derivatives → p < f.function.signature.gdim

end Factor

namespace Expr

/-- The indices that an integrand sums over, with what they range over. -/
def sums : Expr R → FreeIndices
  | leaf _ => []
  | unary (.indexSum i) a => ⟨i, (a.free.dim? i).getD 0⟩ :: a.sums
  | unary _ a => a.sums
  | binary _ a b => a.sums ++ b.sums
  | listTensor _ => []

/-- The slots that are open in the monomials of an integrand, with the lengths of their axes. -/
def slots : Expr R → FreeIndices
  | leaf _ => []
  | unary (.componentTensor ids) a => ids.map fun i => ⟨i, (a.free.dim? i).getD 0⟩
  | unary (.indexed _) _ => []
  | unary _ a => a.slots
  | binary .sum a b => a.slots ++ b.slots
  | binary _ _ _ => []
  | listTensor _ => []

/-- The indices at a node do not get mixed up. -/
structure AxesApart (e : Expr R) : Prop where
  /-- A free index that is summed over inside, or is a slot, ranges over one dimension. -/
  dims : e.free.Compatible (e.sums ++ e.slots)
  /-- A factor with axes is multiplied by a number, and has no open slots. -/
  left : ∀ a b, e = binary .product a b → a.shape ≠ [] → b.isNumeric ∧ a.slots = []
  right : ∀ a b, e = binary .product a b → b.shape ≠ [] → a.isNumeric ∧ b.slots = []
  /-- What is derived lives in one space. -/
  space : ∀ is a, e = unary (.spatialDerivative is) a → ∃ gdim, InSpace gdim a

end Expr

/-! ## Functions -/

namespace Monomial

variable {m m' : Monomial R}

def functions (m : Monomial R) : List (Expr R) :=
  m.factors.map (·.function)

theorem mem_functions {f : Factor R} (hf : f ∈ m.factors) : f.function ∈ m.functions :=
  List.mem_map_of_mem hf

/-- Indexing does not change the functions. -/
theorem functions_index {is : List Index} (h : m.index is = .ok m') :
    m'.functions = m.functions := by
  rcases index_ok h with ⟨-, rfl⟩ | ⟨ids, -, -, rfl⟩
  · exact List.map_map
  · exact List.map_map

/-- Nor does a derivative. -/
theorem functions_derivative {is : List Index} (h : m.derivative is = .ok m') :
    m'.functions = m.functions := by
  obtain ⟨f, hf, rfl⟩ := derivative_ok h
  rw [functions, functions, hf]
  rfl

/-- Nor does a restriction. -/
theorem functions_restrict {side : Side} (h : m.restrict side = .ok m') :
    m'.functions = m.functions := by
  obtain ⟨-, rfl⟩ := restrict_ok h
  exact List.map_map

theorem functions_mul [Scalar R] (m n : Monomial R) :
    (m.mul n).functions = m.functions ++ n.functions :=
  List.map_append

end Monomial

namespace Expr

/-- A subexpression lies in the space of the expression. -/
theorem InSpace.subexpression {gdim : Nat} {a e : Expr R} (h : InSpace gdim e)
    (ha : Subexpression a e) : InSpace gdim a := by
  induction ha with
  | refl => exact h
  | @operand b e hb _ ih =>
    -- its operand does, and so what is beneath it
    refine ih ?_
    cases h with
    | leaf => cases hb
    | unary h =>
      obtain rfl := List.mem_singleton.mp hb
      exact h
    | binary h h' =>
      rcases List.mem_pair.mp hb with rfl | rfl
      · exact h
      · exact h'
    | listTensor h => exact h b hb

/-- An argument or a coefficient of an integrand. -/
def FunctionOf (e g : Expr R) : Prop :=
  ∃ t d, g = leaf t ∧ t.domain? = some d ∧ Subexpression g e

/-- A function of an operand is one of the expression. -/
theorem FunctionOf.operand {a e g : Expr R} (h : FunctionOf a g) (ha : a ∈ e.operands) :
    FunctionOf e g := by
  obtain ⟨t, d, ht, hd, hsub⟩ := h
  exact ⟨t, d, ht, hd, .operand ha hsub⟩

/-- A function has the dimension of the space. -/
theorem FunctionOf.gdim {e g : Expr R} {gdim : Nat} (h : FunctionOf e g) (he : InSpace gdim e) :
    g.signature.gdim = gdim := by
  obtain ⟨t, d, rfl, hd, hsub⟩ := h
  have hdomain : (leaf t : Expr R).domain? = some d := by
    rw [domain?, signature_leaf]
    exact hd
  rw [signature_gdim hdomain, (he.subexpression hsub).gdim_eq hdomain]

variable [Scalar R] {e : Expr R} {m : Monomial R}

/-- The functions of a monomial are arguments and coefficients of the integrand. -/
theorem Extracted.functionOf (h : Extracted e m) : ∀ g ∈ m.functions, FunctionOf e g := by
  -- monomial by monomial, as it was read from the expression
  induction h with
  | argument t =>
    intro g hg
    obtain rfl := List.mem_singleton.mp hg
    exact ⟨.argument t, t.domain, rfl, rfl, .refl⟩
  | coefficient t =>
    intro g hg
    obtain rfl := List.mem_singleton.mp hg
    exact ⟨.coefficient t, t.domain, rfl, rfl, .refl⟩
  | literal | one => exact fun g hg => absurd hg List.not_mem_nil
  | left _ ih => exact fun g hg => (ih g hg).operand List.mem_cons_self
  | right _ ih => exact fun g hg => (ih g hg).operand (List.mem_cons_of_mem _ List.mem_cons_self)
  | product _ _ iha ihb =>
    intro g hg
    -- a product has the functions of its two monomials
    rw [Monomial.functions_mul] at hg
    rcases List.mem_append.mp hg with hg | hg
    · exact (iha g hg).operand List.mem_cons_self
    · exact (ihb g hg).operand (List.mem_cons_of_mem _ List.mem_cons_self)
  | times _ _ ihm iha =>
    intro g hg
    rw [Monomial.functions_mul] at hg
    rcases List.mem_append.mp hg with hg | hg
    · exact ihm g hg
    · exact (iha g hg).operand List.mem_cons_self
  | indexSum _ ih | labelled _ ih => exact fun g hg => (ih g hg).operand List.mem_cons_self
  | indexed _ h ih =>
    rw [Monomial.functions_index h]
    exact fun g hg => (ih g hg).operand List.mem_cons_self
  | componentTensor _ h ih =>
    obtain ⟨-, rfl⟩ := Monomial.openSlots_ok h
    exact fun g hg => (ih g hg).operand List.mem_cons_self
  | spatialDerivative _ h ih =>
    rw [Monomial.functions_derivative h]
    exact fun g hg => (ih g hg).operand List.mem_cons_self
  | restricted _ h ih =>
    rw [Monomial.functions_restrict h]
    exact fun g hg => (ih g hg).operand List.mem_cons_self

end Expr

/-! ## Slots -/

/-- Slots are different, and there is one for every axis. -/
def Monomial.Slotted (m : Monomial R) (e : Expr R) : Prop :=
  ∀ ids, m.slots = some ids → ids ≠ [] ∧ ids.length = e.shape.length ∧ ids.Nodup

namespace Monomial.Slotted

variable {a e : Expr R} {m m' : Monomial R}

/-- Without slots there is nothing to say. -/
theorem of_none (hnone : m.slots = none) : m.Slotted e := by
  intro ids hids
  rw [hnone] at hids
  cases hids

/-- Without axes there are no slots. -/
theorem slots_eq_none (h : m.Slotted e) (hshape : e.shape = []) : m.slots = none := by
  cases hids : m.slots with
  | none => rfl
  | some ids =>
    obtain ⟨hne, hl, -⟩ := h ids hids
    rw [hshape] at hl
    exact absurd (List.eq_nil_of_length_eq_zero hl) hne

/-- What the slots are does not depend on the factors. -/
theorem congr (h : m.Slotted a) (hslots : m'.slots = m.slots) (hshape : e.shape = a.shape) :
    m'.Slotted e := by
  rw [Slotted, hslots, hshape]
  exact h

end Monomial.Slotted

/-- **There is a slot for every axis**, or there are no slots. -/
theorem Expr.Extracted.slotted [Scalar R] {e : Expr R} {m : Monomial R} (h : Extracted e m)
    (hcan : Canonical e) : m.Slotted e := by
  induction h with
  | argument | coefficient | literal | product | one | times => exact .of_none rfl
  -- an operator that keeps the shape keeps the slots
  | left _ ih =>
    cases hcan with
    | binary ha hb happly => exact (ih ha).congr rfl (attributes_add happly).1
  | right _ ih =>
    cases hcan with
    | binary ha hb happly =>
    obtain ⟨hshape, -⟩ := add_built happly
    exact (ih hb).congr rfl ((attributes_add happly).1.trans hshape)
  | indexSum _ ih | labelled _ ih =>
    cases hcan with
    | unary ha happly => exact (ih ha).congr rfl (shape_unary _ _)
  | indexed _ hr _ =>
    -- an indexing closes all slots
    rcases Monomial.index_ok hr with ⟨-, rfl⟩ | ⟨ids, -, -, rfl⟩
    · exact .of_none rfl
    · exact .of_none rfl
  | componentTensor _ hr _ =>
    cases hcan with
    | unary ha happly =>
    obtain ⟨-, hids⟩ := binds_of_apply ha happly
    obtain ⟨-, rfl⟩ := Monomial.openSlots_ok hr
    intro ids hslots
    cases hslots
    exact ⟨hids.nonempty, hids.length, hids.nodup⟩
  | spatialDerivative _ hr ih =>
    cases hcan with
    | unary ha happly =>
    obtain ⟨f, -, rfl⟩ := Monomial.derivative_ok hr
    exact (ih ha).congr rfl (shape_unary _ _)
  | restricted _ hr ih =>
    cases hcan with
    | unary ha happly =>
    obtain ⟨-, rfl⟩ := Monomial.restrict_ok hr
    exact (ih ha).congr rfl (shape_unary _ _)

/-! ## What is known of a monomial -/

/-- A monomial of an expression. Its indices are free, summed over inside or slots. A slot has
the dimension of its axis, and so has its index wherever it occurs. Where there are no slots,
functions have the axes of the expression, and otherwise all their components. -/
structure Monomial.Fits (m : Monomial R) (e : Expr R) : Prop where
  known : ∀ x ∈ m.places, x ∈ e.free ∨ x ∈ e.sums ∨ x.id ∈ m.axes
  slots : ∀ ids, m.slots = some ids → ∀ i d, (i, d) ∈ ids.zip e.shape →
    (⟨i, d⟩ : FreeIndex) ∈ e.slots ∧ ∀ x ∈ m.places, x.id = i → x.dim = d
  unindexed : m.slots = none → e.shape ≠ [] → ∀ f ∈ m.factors, f.function.shape = e.shape
  indexed : (m.slots = none → e.shape = []) →
    ∀ f ∈ m.factors, f.components.length = f.function.rank
  bounded : ∀ f ∈ m.factors, f.Bounded

namespace Monomial.Fits

open WeakForm.Expr

variable {a e : Expr R} {m m' : Monomial R}

/-- A closed monomial of an expression without axes has no slots. -/
theorem slots_of_closed (h : m.Fits e) (hs : m.Slotted e) (hclosed : e.slots = []) :
    m.slots = none := by
  cases hids : m.slots with
  | none => rfl
  | some ids =>
    -- the first slot is one of the expression
    obtain ⟨hne, hl, -⟩ := hs ids hids
    obtain ⟨i, hi⟩ := List.exists_mem_of_ne_nil ids hne
    obtain ⟨d, hd⟩ := exists_mem_zip hl hi
    have hmem := (h.slots ids hids i d hd).1
    rw [hclosed] at hmem
    cases hmem

/-- Without slots, places are free or summed over. -/
theorem known_of_none (h : m.Fits e) (hnone : m.slots = none) {x : FreeIndex} (hx : x ∈ m.places) :
    x ∈ e.free ∨ x ∈ e.sums := by
  rcases h.known x hx with hx | hx | hx
  · exact .inl hx
  · exact .inr hx
  · rw [axes_of_none hnone] at hx
    cases hx

/-- A monomial of a scalar has no slots, and all components of its functions. -/
theorem of_scalar (hshape : e.shape = []) (hnone : m.slots = none)
    (hknown : ∀ x ∈ m.places, x ∈ e.free ∨ x ∈ e.sums)
    (hcount : ∀ f ∈ m.factors, f.components.length = f.function.rank)
    (hbounded : ∀ f ∈ m.factors, f.Bounded) : m.Fits e where
  known x hx := (hknown x hx).imp_right .inl
  slots ids hids := by
    rw [hnone] at hids
    cases hids
  unindexed _ hne := absurd hshape hne
  indexed _ := hcount
  bounded := hbounded

/-- A number fits every expression. -/
theorem of_factorless (hfactors : m.factors = []) (hslots : m.slots = none) : m.Fits e := by
  refine ⟨fun x hx => ?_, fun ids hids => ?_, fun _ _ f hf => ?_, fun _ f hf => ?_, fun f hf => ?_⟩
  · obtain ⟨f, hf, -⟩ := mem_places.mp hx
    rw [hfactors] at hf
    cases hf
  · rw [hslots] at hids
    cases hids
  all_goals
    rw [hfactors] at hf
    cases hf

/-- The same monomial in an expression of the same shape, in which what was free is free or
summed over. -/
theorem mono (h : m.Fits a) (hshape : e.shape = a.shape)
    (hfree : ∀ x ∈ a.free, x ∈ e.free ∨ x ∈ e.sums) (hsums : a.sums ⊆ e.sums)
    (hslots : m.slots = none ∨ a.slots ⊆ e.slots) : m.Fits e where
  known x hx := by
    rcases h.known x hx with hx | hx | hx
    · exact (hfree x hx).imp_right .inl
    · exact .inr (.inl (hsums hx))
    · exact .inr (.inr hx)
  slots ids hids i d hd := by
    -- the monomial has slots
    have hsub : a.slots ⊆ e.slots := by
      refine hslots.resolve_left fun hnone => ?_
      rw [hnone] at hids
      cases hids
    rw [hshape] at hd
    exact (h.slots ids hids i d hd).imp_left fun hslot => hsub hslot
  unindexed hnone hne := by
    rw [hshape] at hne ⊢
    exact h.unindexed hnone hne
  indexed hnone := h.indexed fun hs => hshape.symm.trans (hnone hs)
  bounded := h.bounded

/-- What occurs under the name of a free index ranges over its dimension. -/
theorem dim_eq (h : m.Fits e) (hs : m.Slotted e) (hsorted : e.free.Sorted) (hapart : AxesApart e)
    {x y : FreeIndex} (hx : x ∈ m.places) (hy : y ∈ e.free) (hid : x.id = y.id) :
    x.dim = y.dim := by
  rcases h.known x hx with hx' | hx' | hx'
  · rw [hsorted.eq_of_id hx' hy hid]
  · exact (hapart.dims y hy x (List.mem_append_left _ hx') hid.symm).symm
  · -- a slot has the dimension of its axis
    cases hids : m.slots with
    | none =>
      rw [axes_of_none hids] at hx'
      cases hx'
    | some ids =>
      rw [axes_of_some hids] at hx'
      obtain ⟨d, hd⟩ := exists_mem_zip (hs ids hids).2.1 hx'
      obtain ⟨hslot, hdim⟩ := h.slots ids hids x.id d hd
      rw [hdim x hx rfl]
      exact (hapart.dims y hy _ (List.mem_append_right _ hslot) hid.symm).symm

/-! ### Terminals and arithmetic -/

/-- A function is a monomial without indices. -/
theorem ofFactor [Scalar R] (t : Terminal R) :
    -- a function alone has no places and no slots
    (Monomial.ofFactor { function := leaf t }).Fits (leaf t) := by
  have hplaces : (Monomial.ofFactor { function := leaf t } : Monomial R).places = [] := by
    simp [Monomial.places, Monomial.ofFactor, Factor.places, Signature.indexedFree,
      Signature.directionFree]
  refine ⟨fun x hx => ?_, fun ids hids => ?_, fun _ _ f hf => ?_, fun hnone f hf => ?_,
    fun f hf => ?_⟩
  · rw [hplaces] at hx
    cases hx
  · cases hids
  · obtain rfl := List.mem_singleton.mp hf
    rfl
  · -- a scalar function has no axes
    obtain rfl := List.mem_singleton.mp hf
    have hshape : (leaf t : Expr R).shape = [] := hnone rfl
    rw [rank, hshape]
    rfl
  · obtain rfl := List.mem_singleton.mp hf
    exact ⟨fun p d hp => absurd hp List.not_mem_nil, fun p hp => absurd hp List.not_mem_nil⟩

/-- A monomial without slots that has the factors of another one. -/
theorem congr (h : m.Fits e) (hslots : m.slots = none) (hfactors : m'.factors = m.factors)
    (hslots' : m'.slots = none) : m'.Fits e := by
  -- the factors are the same, so their places are
  have hplaces : m'.places = m.places := by rw [places, places, hfactors]
  have haxes : m'.axes = m.axes := by rw [axes_of_none hslots, axes_of_none hslots']
  refine ⟨?_, fun ids hids => ?_, fun _ => ?_, fun hnone => ?_, ?_⟩
  · rw [hplaces, haxes]
    exact h.known
  · rw [hslots'] at hids
    cases hids
  · rw [hfactors]
    exact h.unindexed hslots
  · rw [hfactors]
    exact h.indexed fun _ => hnone hslots'
  · rw [hfactors]
    exact h.bounded

variable [Scalar R] {b : Expr R} {n : Monomial R}

/-- A product of scalars has the indices of both factors. -/
theorem mul_scalar (hm : m.Fits e) (hn : n.Fits e) (hshape : e.shape = []) (hsm : m.slots = none)
    (hsn : n.slots = none) : (m.mul n).Fits e := by
  refine of_scalar hshape rfl (fun x hx => ?_) (fun f hf => ?_) fun f hf => ?_
  · rcases mem_places_mul.mp hx with hx | hx
    · exact hm.known_of_none hsm hx
    · exact hn.known_of_none hsn hx
  · rcases List.mem_append.mp hf with hf | hf
    · exact hm.indexed (fun _ => hshape) f hf
    · exact hn.indexed (fun _ => hshape) f hf
  · rcases List.mem_append.mp hf with hf | hf
    · exact hm.bounded f hf
    · exact hn.bounded f hf

/-- Monomials of two factors fit the product. -/
theorem product (ha : a.free.Sorted) (hb : b.free.Sorted)
    (happly : BinaryOp.apply .product a b = .ok (binary .product a b))
    (hapart : AxesApart (binary .product a b)) (hm : m.Fits a) (hn : n.Fits b)
    (hsm : m.Slotted a) (hsn : n.Slotted b)
    (hnuma : a.isNumeric → m.factors = []) (hnumb : b.isNumeric → n.factors = []) :
    (m.mul n).Fits (binary .product a b) := by
  have hfree : ∀ x, x ∈ (binary .product a b).free ↔ x ∈ a.free ∨ x ∈ b.free :=
    fun x => mem_free_binary ha hb happly
  have hsums : (binary .product a b).sums = a.sums ++ b.sums := rfl
  have hshape := (attributes_mul happly).1
  obtain ⟨hscalar, -⟩ := mul_built happly
  -- each factor alone fits the product, where it has the shape of the product and no slots
  have hma : (binary .product a b).shape = a.shape → m.slots = none →
      m.Fits (binary .product a b) := fun hs hnone =>
    hm.mono hs (fun x hx => .inl ((hfree x).mpr (.inl hx))) (List.subset_append_left _ _)
      (.inl hnone)
  have hnb : (binary .product a b).shape = b.shape → n.slots = none →
      n.Fits (binary .product a b) := fun hs hnone =>
    hn.mono hs (fun x hx => .inl ((hfree x).mpr (.inr hx))) (List.subset_append_right _ _)
      (.inl hnone)
  by_cases hsa : a.shape = []
  · rw [if_pos hsa] at hshape
    by_cases hsb : b.shape = []
    · -- both factors are scalar
      have hm₀ := hsm.slots_eq_none hsa
      have hn₀ := hsn.slots_eq_none hsb
      exact (hma (hshape.trans (hsb.trans hsa.symm)) hm₀).mul_scalar (hnb hshape hn₀)
        (hshape.trans hsb) hm₀ hn₀
    · -- the left factor is a number
      obtain ⟨hnum, hclosed⟩ := hapart.right a b rfl hsb
      have hnone := hn.slots_of_closed hsn hclosed
      refine (hnb hshape hnone).congr hnone ?_ rfl
      show m.factors ++ n.factors = n.factors
      rw [hnuma hnum, List.nil_append]
  · -- the right factor is a number
    rw [if_neg hsa] at hshape
    obtain ⟨hnum, hclosed⟩ := hapart.left a b rfl hsa
    have hnone := hm.slots_of_closed hsm hclosed
    refine (hma hshape hnone).congr hnone ?_ rfl
    show m.factors ++ n.factors = m.factors
    rw [hnumb hnum, List.append_nil]

/-- One more factor of a power. -/
theorem times (happly : BinaryOp.apply .power a b = .ok (binary .power a b))
    (hm : m.Fits (binary .power a b)) (hn : n.Fits a) (hsm : m.Slotted (binary .power a b))
    (hsn : n.Slotted a) : (m.mul n).Fits (binary .power a b) := by
  obtain ⟨hs, -, -⟩ := pow_built happly
  obtain ⟨hshape, hfree⟩ := attributes_pow happly
  have hn₀ := hsn.slots_eq_none hs
  have hn' : n.Fits (binary .power a b) := hn.mono (hshape.trans hs.symm)
    (fun x hx => .inl (hfree ▸ hx)) (List.subset_append_left _ _) (.inl hn₀)
  exact hm.mul_scalar hn' hshape (hsm.slots_eq_none hshape) hn₀

/-! ### Indexing -/

omit [Scalar R] in
/-- What a slot of a factor is filled with lies on the axis of the slot. -/
theorem fillSlot_lt (h : m.Fits a) (hs : m.Slotted a) {ids : List IndexId} {is : List Index}
    (hids : m.slots = some ids) (hl : is.length = a.rank)
    (hbounded : ∀ p d, (.fixed p, d) ∈ is.zip a.shape → p < d) {j : Index} {d p : Nat}
    (hj : ∀ q, j = .fixed q → q < d) (hplace : ∀ i, j = .free i → (⟨i, d⟩ : FreeIndex) ∈ m.places)
    (hfill : Factor.fillSlot ids is j = .fixed p) : p < d := by
  cases j with
  | fixed q =>
    cases hfill
    exact hj p rfl
  | free i =>
    obtain ⟨-, hshape, hnodup⟩ := hs ids hids
    rw [Factor.fillSlot_eq_onIndex] at hfill
    by_cases hi : i ∈ ids
    · -- the index has the dimension of the axis that it stands for
      obtain ⟨d', haxis, hput⟩ := exists_onIndex_zip (hshape.trans hl.symm) hshape hnodup hi
      have hdim : d = d' := (h.slots ids hids i d' haxis).2 ⟨i, d⟩ (hplace i rfl) rfl
      rw [hfill] at hput
      rw [hdim]
      exact hbounded p d' hput
    · rw [onIndex_zip_of_not_mem hi] at hfill
      cases hfill

omit [Scalar R] in
/-- A factor with its slots filled. -/
theorem bounded_fillSlots (h : m.Fits a) (hs : m.Slotted a) {ids : List IndexId} {is : List Index}
    (hids : m.slots = some ids) (hl : is.length = a.rank)
    (hbounded : ∀ p d, (.fixed p, d) ∈ is.zip a.shape → p < d) {f : Factor R}
    (hf : f ∈ m.factors) : (f.fillSlots ids is).Bounded := by
  have hb := h.bounded f hf
  constructor
  · intro p d hp
    have hp : (Index.fixed p, d) ∈
        (f.components.map (Factor.fillSlot ids is)).zip f.function.shape := hp
    rw [List.zip_map_left] at hp
    obtain ⟨⟨j, d'⟩, hj, heq⟩ := List.mem_map.mp hp
    obtain ⟨hfill, rfl⟩ := Prod.mk.inj heq
    refine h.fillSlot_lt hs hids hl hbounded (fun q hq => ?_) (fun i hi => ?_) hfill
    · exact hb.components q d' (hq ▸ hj)
    · exact mem_places.mpr ⟨f, hf, Factor.mem_places.mpr (.inl (hi ▸ hj))⟩
  -- positions among the components, then among the directions
  · intro p hp
    obtain ⟨j, hj, hfill⟩ := List.mem_map.mp hp
    refine h.fillSlot_lt hs hids hl hbounded (fun q hq => ?_) (fun i hi => ?_) hfill
    · exact hb.directions q (hq ▸ hj)
    · exact mem_places.mpr ⟨f, hf, Factor.mem_places.mpr (.inr ⟨hi ▸ hj, rfl⟩)⟩

omit [Scalar R] in
/-- The indices of a monomial whose slots are filled. -/
theorem known_fillSlots (h : m.Fits a) (hs : m.Slotted a) {ids : List IndexId} {is : List Index}
    (hids : m.slots = some ids) (hl : is.length = a.rank) {f : Factor R} (hf : f ∈ m.factors)
    {x : FreeIndex} (hx : x ∈ (f.fillSlots ids is).places) :
    x ∈ a.free ∨ (Index.free x.id, x.dim) ∈ is.zip a.shape ∨ x ∈ a.sums := by
  obtain ⟨y, hy, hfill, hdim⟩ := Factor.mem_places_fillSlots.mp hx
  have hplace : y ∈ m.places := mem_places.mpr ⟨f, hf, hy⟩
  obtain ⟨-, hshape, hnodup⟩ := hs ids hids
  rw [Factor.fillSlot_eq_onIndex] at hfill
  by_cases hi : y.id ∈ ids
  · -- what is put in for a slot
    obtain ⟨d, haxis, hput⟩ := exists_onIndex_zip (hshape.trans hl.symm) hshape hnodup hi
    rw [hfill] at hput
    rw [← hdim, (h.slots ids hids y.id d haxis).2 y hplace rfl]
    exact .inr (.inl hput)
  · -- an index that is no slot stays
    rw [onIndex_zip_of_not_mem hi] at hfill
    obtain rfl : y = x := FreeIndex.eq_of_id_of_dim (Index.free.inj hfill) hdim
    rcases h.known y hplace with hy | hy | hy
    · exact .inl hy
    · exact .inr (.inr hy)
    · rw [axes_of_some hids] at hy
      exact absurd hy hi

/-- Indexing a monomial that fits gives one that fits. -/
theorem indexing {is : List Index}
    (happly : UnaryOp.apply (.indexed is) a = .ok (unary (.indexed is) a)) (h : m.Fits a)
    (hs : m.Slotted a) (hr : m.index is = .ok m') : m'.Fits (unary (.indexed is) a) := by
  obtain ⟨hl, hok⟩ := Expr.index_ok happly
  obtain ⟨hshape, -⟩ := attributes_index happly
  have hfree : ∀ x, x ∈ a.free ∨ (Index.free x.id, x.dim) ∈ is.zip a.shape →
      x ∈ (unary (.indexed is) a).free := by
    intro x hx
    rw [mem_free_unary happly]
    simpa [UnaryOp.bound, UnaryOp.introduced, Signature.mem_indexedFree, Expr.shape] using hx
  have hne : a.shape ≠ [] := fun hs =>
    (indexed_node happly).1 (List.eq_nil_of_length_eq_zero (hl.trans (congrArg List.length hs)))
  rcases Monomial.index_ok hr with ⟨hnone, rfl⟩ | ⟨ids, hids, -, rfl⟩
  · -- functions that are not indexed yet have the axes of the operand
    have hshapes := h.unindexed hnone hne
    refine of_scalar hshape rfl (fun x hx => ?_) (fun f' hf' => ?_) fun f' hf' => ?_
    · obtain ⟨f', hf', hx⟩ := mem_places.mp hx
      obtain ⟨f, hf, rfl⟩ := List.mem_map.mp hf'
      rcases Factor.mem_places.mp hx with hx | hx
      · exact .inl (hfree x (.inr (hshapes f hf ▸ hx)))
      · have hplace : x ∈ m.places := mem_places.mpr ⟨f, hf, Factor.mem_places.mpr (.inr hx)⟩
        exact (h.known_of_none hnone hplace).imp_left fun hx => hfree x (.inl hx)
    · obtain ⟨f, hf, rfl⟩ := List.mem_map.mp hf'
      exact hl.trans (congrArg List.length (hshapes f hf).symm)
    · obtain ⟨f, hf, rfl⟩ := List.mem_map.mp hf'
      exact ⟨fun p d hp => hok.bounded p d (hshapes f hf ▸ hp), (h.bounded f hf).directions⟩
  -- the slots are filled, so what is free comes from the entries
  · refine of_scalar hshape rfl (fun x hx => ?_) (fun f' hf' => ?_) fun f' hf' => ?_
    · obtain ⟨f', hf', hx⟩ := mem_places.mp hx
      obtain ⟨f, hf, rfl⟩ := List.mem_map.mp hf'
      rcases h.known_fillSlots hs hids hl hf hx with hx | hx | hx
      · exact .inl (hfree x (.inl hx))
      · exact .inl (hfree x (.inr hx))
      · exact .inr hx
    · obtain ⟨f, hf, rfl⟩ := List.mem_map.mp hf'
      have hslots : m.slots = none → a.shape = [] := by
        intro hnone
        rw [hids] at hnone
        cases hnone
      exact (List.length_map _).trans (h.indexed hslots f hf)
    · obtain ⟨f, hf, rfl⟩ := List.mem_map.mp hf'
      exact h.bounded_fillSlots hs hids hl hok.bounded hf

/-! ### Component tensors -/

/-- Slots are opened for free indices of a scalar. -/
theorem tensor {ids : List IndexId} (ha : Canonical a) (hapart : AxesApart a)
    (happly : UnaryOp.apply (.componentTensor ids) a = .ok (unary (.componentTensor ids) a))
    (h : m.Fits a) (hs : m.Slotted a) (hr : m.openSlots ids = .ok m') :
    m'.Fits (unary (.componentTensor ids) a) := by
  obtain ⟨hscalar, hids⟩ := binds_of_apply ha happly
  obtain ⟨hnone, rfl⟩ := openSlots_ok hr
  refine ⟨fun x hx => ?_, fun ids' hids' i d hd => ?_, fun hopened => ?_, fun _ f hf => ?_,
    h.bounded⟩
  · rcases h.known_of_none hnone hx with hx | hx
    · -- a free index becomes a slot or stays free
      by_cases hmem : x.id ∈ ids
      · exact .inr (.inr hmem)
      · refine .inl ?_
        rw [mem_free_unary happly]
        exact .inl ⟨hx, hmem⟩
    · exact .inr (.inl hx)
  · cases hids'
    refine ⟨?_, fun x hx hid => ?_⟩
    · -- the axes have the dimensions that the indices range over
      have hmem := hids.free i d hd
      refine List.mem_map.mpr ⟨i, (List.of_mem_zip hd).1, ?_⟩
      rw [ha.sorted.dim?_eq_some.mpr hmem, Option.getD_some]
    · exact h.dim_eq hs ha.sorted hapart hx (hids.free i d hd) hid
  · cases hopened
  · exact h.indexed (fun _ => hscalar) f hf

/-! ### Derivatives and restrictions -/

/-- Deriving a monomial that fits gives one that fits. -/
theorem derived {is : List Index} {gdim : Nat} (hspace : InSpace gdim a)
    (happly : UnaryOp.apply (.spatialDerivative is) a = .ok (unary (.spatialDerivative is) a))
    (hapart : AxesApart (unary (.spatialDerivative is) a)) (h : m.Fits a)
    (hfunctions : ∀ g ∈ m.functions, FunctionOf a g) (hr : m.derivative is = .ok m') :
    m'.Fits (unary (.spatialDerivative is) a) := by
  obtain ⟨-, d, hd, hdirections, -⟩ := derivative_node happly
  -- the functions live in the space that the directions are in
  have hgdim : ∀ f ∈ m.factors, f.function.signature.gdim = d.gdim := fun f hf =>
    ((hfunctions _ (mem_functions hf)).gdim hspace).trans (hspace.gdim_eq hd).symm
  have hplaces : ∀ x ∈ m'.places, x ∈ m.places ∨ (Index.free x.id ∈ is ∧ x.dim = d.gdim) :=
    fun x hx => (mem_places_derivative hgdim hr).mp hx
  have hfree : ∀ x, x ∈ a.free ∨ (Index.free x.id ∈ is ∧ x.dim = d.gdim) →
      x ∈ (unary (.spatialDerivative is) a).free := by
    intro x hx
    rw [mem_free_unary happly]
    simpa [UnaryOp.bound, UnaryOp.introduced, Signature.mem_directionFree, signature_gdim hd]
      using hx
  have hshape : (unary (.spatialDerivative is) a).shape = a.shape := shape_unary _ a
  obtain ⟨f, hf, rfl⟩ := derivative_ok hr
  have hmem : f ∈ m.factors := by
    rw [hf]
    exact List.mem_singleton_self f
  refine ⟨fun x hx => ?_, fun ids hids i n hn => ?_, fun hnone hne f' hf' => ?_,
    fun hnone f' hf' => ?_, fun f' hf' => ?_⟩
  · rcases hplaces x hx with hx | hx
    · rcases h.known x hx with hx | hx | hx
      · exact .inl (hfree x (.inl hx))
      · exact .inr (.inl hx)
      · exact .inr (.inr hx)
    · exact .inl (hfree x (.inr hx))
  · rw [hshape] at hn
    obtain ⟨hslot, hdim⟩ := h.slots ids hids i n hn
    refine ⟨hslot, fun x hx hid => ?_⟩
    rcases hplaces x hx with hx | hx
    · exact hdim x hx hid
    · -- a direction that has the name of a slot
      exact hapart.dims x (hfree x (.inr hx)) ⟨i, n⟩ (List.mem_append_right _ hslot) hid
  · obtain rfl := List.mem_singleton.mp hf'
    rw [hshape] at hne ⊢
    exact h.unindexed hnone hne f hmem
  · obtain rfl := List.mem_singleton.mp hf'
    -- the shape is the operand's, so the factor keeps its rank
    exact h.indexed (fun hnone' => hshape.symm.trans (hnone hnone')) f hmem
  · obtain rfl := List.mem_singleton.mp hf'
    refine ⟨(h.bounded f hmem).components, fun p hp => ?_⟩
    rcases List.mem_append.mp hp with hp | hp
    · exact (h.bounded f hmem).directions p hp
    · show p < f.function.signature.gdim
      rw [hgdim f hmem]
      exact checkDirections_fixed hdirections p hp

/-- A monomial of the left operand of a sum. -/
theorem left (h : m.Fits a) (happly : BinaryOp.apply .sum a b = .ok (binary .sum a b)) :
    m.Fits (binary .sum a b) := by
  obtain ⟨hshape, hfree⟩ := attributes_add happly
  exact h.mono hshape (fun x hx => .inl (hfree ▸ hx)) (List.subset_append_left _ _)
    (.inr (List.subset_append_left _ _))

/-- A monomial of the right operand of a sum. -/
theorem right (h : m.Fits b) (happly : BinaryOp.apply .sum a b = .ok (binary .sum a b)) :
    m.Fits (binary .sum a b) := by
  obtain ⟨hshape, hfree⟩ := attributes_add happly
  obtain ⟨hshapes, hfrees, -⟩ := add_built happly
  exact h.mono (hshape.trans hshapes) (fun x hx => .inl (hfree ▸ hfrees ▸ hx))
    (List.subset_append_right _ _) (.inr (List.subset_append_right _ _))

/-- An index sum: from here on its index is summed over. -/
theorem summing {i : IndexId} (h : m.Fits a) (ha : Canonical a)
    (happly : UnaryOp.apply (.indexSum i) a = .ok (unary (.indexSum i) a)) :
    m.Fits (unary (.indexSum i) a) := by
  refine h.mono (shape_unary _ a) (fun x hx => ?_) (List.subset_cons_self _ _)
    (.inr fun _ hx => hx)
  by_cases hi : x.id = i
  · refine .inr (List.mem_cons.mpr (.inl ?_))
    rw [← hi, ha.sorted.dim?_eq_some.mpr hx, Option.getD_some]
  · refine .inl ?_
    rw [mem_free_unary happly]
    exact .inl ⟨hx, fun hmem => hi (List.mem_singleton.mp hmem)⟩

omit [Scalar R] in
/-- A label changes nothing. -/
theorem labelled {number : Nat} (h : m.Fits a) : m.Fits (unary (.labelled number) a) := by
  have hfree : (unary (.labelled number) a).free = a.free := free_unary _ a
  exact h.mono (shape_unary _ a) (fun x hx => .inl (hfree ▸ hx)) (fun _ hx => hx)
    (.inr fun _ hx => hx)

omit [Scalar R] in
/-- Restricting changes only the sides of factors. -/
theorem restricting {side : Side} (h : m.Fits a) (hr : m.restrict side = .ok m') :
    m'.Fits (unary (.restricted side) a) := by
  have hplaces := places_restrict hr
  obtain ⟨-, rfl⟩ := restrict_ok hr
  have hshape : (unary (.restricted side) a).shape = a.shape := shape_unary _ a
  have hfree : (unary (.restricted side) a).free = a.free := free_unary _ a
  refine ⟨fun x hx => ?_, fun ids hids => ?_, fun hnone hne f' hf' => ?_, fun hnone f' hf' => ?_,
    fun f' hf' => ?_⟩
  · rw [hplaces] at hx
    rw [hfree]
    exact h.known x hx
  · rw [hplaces, hshape]
    exact h.slots ids hids
  -- a restriction changes nothing else of a factor
  · obtain ⟨f, hf, rfl⟩ := List.mem_map.mp hf'
    rw [hshape] at hne ⊢
    exact h.unindexed hnone hne f hf
  · obtain ⟨f, hf, rfl⟩ := List.mem_map.mp hf'
    exact h.indexed (fun hnone' => hshape.symm.trans (hnone hnone')) f hf
  · obtain ⟨f, hf, rfl⟩ := List.mem_map.mp hf'
    exact ⟨(h.bounded f hf).components, (h.bounded f hf).directions⟩

end Monomial.Fits

/-! ## The components of an integrand -/

namespace Expr

variable [Scalar R] {a e r : Expr R} {m : Monomial R} {ms : MonomialSum R}

omit [Scalar R] in
theorem apart_operand (h : ∀ s, Subexpression s e → AxesApart s) (ha : a ∈ e.operands) :
    ∀ s, Subexpression s a → AxesApart s :=
  fun s hs => h s (.operand ha hs)

omit [Scalar R] in
/-- The axes are told apart in a node, if they are in all of its operands. -/
theorem apart_node (he : AxesApart e)
    (h : ∀ a ∈ e.operands, ∀ s, Subexpression s a → AxesApart s) :
    ∀ s, Subexpression s e → AxesApart s := by
  intro s hs
  cases hs with
  | refl => exact he
  | operand hb hs => exact h _ hb s hs

/-- **Every monomial fits its integrand**, where the indices at all nodes are kept apart. -/
theorem Extracted.fits (h : Extracted e m) (hcan : Canonical e)
    (hapart : ∀ s, Subexpression s e → AxesApart s) : m.Fits e := by
  induction h with
  | argument t => exact .ofFactor _
  | coefficient t => exact .ofFactor _
  | literal v => exact .of_factorless rfl rfl
  | one => exact .of_factorless rfl rfl
  | left _ ih =>
    cases hcan with
    | binary ha hb happly =>
    exact (ih ha (apart_operand hapart List.mem_cons_self)).left happly
  | right _ ih =>
    cases hcan with
    | binary ha hb happly =>
    have hright := apart_operand hapart (List.mem_cons_of_mem _ List.mem_cons_self)
    exact (ih hb hright).right happly
  -- a product needs both factors' slots told apart from each other
  | product hm hn iha ihb =>
    cases hcan with
    | binary ha hb happly =>
    exact .product ha.sorted hb.sorted happly (hapart _ .refl)
      (iha ha (apart_operand hapart List.mem_cons_self))
      (ihb hb (apart_operand hapart (List.mem_cons_of_mem _ List.mem_cons_self)))
      (hm.slotted ha) (hn.slotted hb) hm.factorless hn.factorless
  | times hm hn ihm iha =>
    have hm' := ihm hcan hapart
    have hsm := hm.slotted hcan
    cases hcan with
    | binary ha hb happly =>
    exact .times happly hm' (iha ha (apart_operand hapart List.mem_cons_self)) hsm
      (hn.slotted ha)
  | indexSum _ ih =>
    cases hcan with
    | unary ha happly =>
    exact (ih ha (apart_operand hapart List.mem_cons_self)).summing ha happly
  | labelled _ ih =>
    cases hcan with
    | unary ha happly => exact (ih ha (apart_operand hapart List.mem_cons_self)).labelled
  | indexed hm hr ih =>
    cases hcan with
    | unary ha happly =>
    exact (ih ha (apart_operand hapart List.mem_cons_self)).indexing happly (hm.slotted ha) hr
  | componentTensor hm hr ih =>
    cases hcan with
    | unary ha happly =>
    have hoperand := apart_operand hapart List.mem_cons_self
    exact (ih ha hoperand).tensor ha (hoperand _ .refl) happly (hm.slotted ha) hr
  -- a derivative needs the space to name its directions
  | @spatialDerivative is a m m' hm hr ih =>
    cases hcan with
    | unary ha happly =>
    obtain ⟨gdim, hspace⟩ := (hapart _ .refl).space is a rfl
    exact (ih ha (apart_operand hapart List.mem_cons_self)).derived hspace happly
      (hapart _ .refl) hm.functionOf hr
  | restricted _ hr ih =>
    cases hcan with
    | unary ha happly =>
    exact (ih ha (apart_operand hapart List.mem_cons_self)).restricting hr

variable [DecidableEq R]

/-- **The monomials of a scalar integrand have no open slots, and their factors are components
of their functions** where the indices at all nodes are kept apart. -/
theorem monomials_isComponent (hbuilt : Built e) (hshape : e.shape = [])
    (h : e.monomials = .ok ms) :
    (∀ m ∈ ms, m.slots = none) ∧
      ((∀ r, e.resolveItems = .ok r → ∀ s, Subexpression s r → AxesApart s) →
        ∀ m ∈ ms, ∀ f ∈ m.factors, f.IsComponent) := by
  obtain ⟨r, hr, hextract⟩ := monomials_ok h
  have hresolve := hr
  rw [resolveItems_eq_resolve] at hresolve
  -- the selection of list items keeps the integrand scalar
  have hcan : Canonical r := canonical_closed.resolve hbuilt.canonical hresolve
  have hscalar : r.shape = [] := by
    have hrank := rank_resolve hbuilt.canonical hresolve
    rw [rank, rank, hshape] at hrank
    exact List.eq_nil_of_length_eq_zero hrank
  refine ⟨fun m hm => ?_, fun hapart m hm f hf => ?_⟩
  · exact ((extracted_of_mem hextract hm).slotted hcan).slots_eq_none hscalar
  · have hextracted := extracted_of_mem hextract hm
    have hfits := hextracted.fits hcan (hapart r hr)
    obtain ⟨t, d, ht, hd, -⟩ := hextracted.functionOf _ (Monomial.mem_functions hf)
    have hdomain : f.function.domain? = some d := by
      rw [ht, domain?, signature_leaf]
      exact hd
    refine ⟨hfits.indexed (fun _ => hscalar) f hf, (hfits.bounded f hf).components, d, hdomain,
      fun p hp => ?_⟩
    rw [← signature_gdim hdomain]
    exact (hfits.bounded f hf).directions p hp

/-! ### A vector that is multiplied -/

namespace ScaledVector

def scale : Expr ℚ :=
  coefficient ⟨0, ⟨1, 1, []⟩, .ofCell .triangle 0⟩

def vector : Expr ℚ :=
  coefficient ⟨1, ⟨2, 1, [2]⟩, .ofCell .triangle 0⟩

def two : Expr ℚ :=
  leaf (.literal (.int 2))

/-- `∂₀ v`. -/
def slope : Expr ℚ :=
  unary (.spatialDerivative [.fixed 0]) vector

/-- The first component of a tensor that is multiplied by a scalar. -/
def component (a b : Expr ℚ) : Expr ℚ :=
  unary (.indexed [.fixed 0]) (binary .product a b)

/-- The first component of `∂₀ v`, as a factor. -/
def factor : Factor ℚ :=
  { function := vector, components := [.fixed 0], derivatives := [.fixed 0] }

/-- The component of the product is built. -/
theorem built_component {a b : Expr ℚ} (ha : Built a) (hb : Built b)
    (hproduct : a.mul b = .ok (binary .product a b))
    (hcomponent : (binary .product a b).index [.fixed 0] = .ok (component a b)) :
    Built (component a b) := by
  have hab : BinaryOp.apply .product a b = .ok (binary .product a b) := hproduct
  have hindexed : UnaryOp.apply (.indexed [.fixed 0]) (binary .product a b) =
      .ok (component a b) := hcomponent
  exact .unary (.binary ha hb hab) hindexed

/-- The vector lies in the plane. -/
theorem inSpace_vector : InSpace 2 vector := by
  refine .leaf fun d hd => ?_
  cases hd
  rfl

/-- The factor with axes is multiplied by a number, and what is derived is a function. -/
theorem apart_component : ∀ s, Subexpression s (component two slope) → AxesApart s := by
  -- nothing is free, so that dimensions agree
  have hdims : ∀ {e : Expr ℚ}, e.free = [] → e.free.Compatible (e.sums ++ e.slots) := by
    intro e he
    rw [he]
    exact fun x hx => absurd hx List.not_mem_nil
  have hleaf : ∀ {t : Terminal ℚ}, t.free = [] →
      ∀ s, Subexpression s (leaf t) → AxesApart s := fun {t} ht =>
    apart_node ⟨hdims ((free_leaf t).trans ht), (fun a b h => by cases h),
      (fun a b h => by cases h), (fun is a h => by cases h)⟩ fun a ha =>
        absurd ha List.not_mem_nil
  have hslope : ∀ s, Subexpression s slope → AxesApart s := by
    refine apart_node ⟨hdims (by cbv), (fun a b h => by cases h), (fun a b h => by cases h),
      ?_⟩ ?_
    · rintro is a h
      cases h
      exact ⟨2, inSpace_vector⟩
    · intro a ha
      obtain rfl := List.mem_singleton.mp ha
      exact hleaf rfl
  have hproduct : ∀ s, Subexpression s (binary .product two slope) → AxesApart s := by
    refine apart_node ⟨hdims (by cbv), ?_, ?_, (fun is a h => by cases h)⟩ ?_
    · rintro a b h hshape
      cases h
      exact absurd (shape_leaf_literal (.int 2)) hshape
    · rintro a b h -
      cases h
      exact ⟨rfl, rfl⟩
    · intro a ha
      rcases List.mem_pair.mp ha with rfl | rfl
      · exact hleaf rfl
      · exact hslope
  refine apart_node ⟨hdims (by cbv), (fun a b h => by cases h), (fun a b h => by cases h),
    (fun is a h => by cases h)⟩ fun a ha => ?_
  obtain rfl := List.mem_singleton.mp ha
  exact hproduct

end ScaledVector

/-- A component of a derivative that is multiplied by a number. -/
theorem monomials_isComponent_slope :
    (ScaledVector.component ScaledVector.two ScaledVector.slope).monomials =
        .ok [{ coefficient := 2, factors := [ScaledVector.factor] }] ∧
      ScaledVector.factor.IsComponent := by
  have hslope : UnaryOp.apply (.spatialDerivative [.fixed 0]) ScaledVector.vector =
      .ok ScaledVector.slope := by
    cbv
  have hbuilt : Built (ScaledVector.component ScaledVector.two ScaledVector.slope) :=
    ScaledVector.built_component (.literal (.int 2)) (.unary (.coefficient _) hslope) (by cbv)
      (by cbv)
  have hfree : (ScaledVector.component ScaledVector.two ScaledVector.slope).isListFree := rfl
  have hmonomials : (ScaledVector.component ScaledVector.two ScaledVector.slope).monomials =
      .ok [{ coefficient := 2, factors := [ScaledVector.factor] }] := by
    rw [monomials_of_isListFree hfree]
    cbv
  obtain ⟨-, hfactors⟩ := monomials_isComponent hbuilt (by cbv) hmonomials
  refine ⟨hmonomials, hfactors (fun r hr => ?_) _ List.mem_cons_self _ List.mem_cons_self⟩
  rw [resolveItems_eq_resolve, resolve_of_isListFree hfree] at hr
  cases hr
  exact ScaledVector.apart_component

/-- A scalar function is given a component: the indexing of a product sets the components of
both factors. -/
theorem monomials_scaledVector :
    Built (ScaledVector.component ScaledVector.scale ScaledVector.vector) ∧
      (ScaledVector.component ScaledVector.scale ScaledVector.vector).shape = [] ∧
      (ScaledVector.component ScaledVector.scale ScaledVector.vector).monomials =
        .ok [{ coefficient := 1, factors :=
          [{ function := ScaledVector.scale, components := [.fixed 0] },
            { function := ScaledVector.vector, components := [.fixed 0] }] }] ∧
      ¬({ function := ScaledVector.scale, components := [.fixed 0] } : Factor ℚ).IsComponent := by
  refine ⟨ScaledVector.built_component (.coefficient _) (.coefficient _) (by cbv) (by cbv),
    by cbv, ?_, fun h => ?_⟩
  -- every factor takes the index, the scalar one, too
  · rw [monomials_of_isListFree rfl]
    cbv
  · have hrank : ScaledVector.scale.rank = 0 := by
      cbv
    have hcount := h.count
    rw [hrank] at hcount
    cases hcount

end Expr

end WeakForm
