import WeakForm.Proofs.ComponentFolding
import WeakForm.Proofs.Rational

/-!
# Scalarization computes the tensor

The scalar components of an expression are listed with its axes outside and its free
indices inside, both row-major. Here each entry of the list is shown to have the value
of the expression at the component and at the positions that the entry stands for.

What is listed are the components, so the values are found without the list: a component
is built by the operator of the expression from components of the operands, and has the
meaning of that operator.

* `value_leafComponent`, `value_sumTerms`, `meaning_component` — chains, sums and algebra;
* `value_component` — the value of a component;
* `Scalarized` — a list of scalar expressions with the values of the components;
* `scalarizeAll_value` — the result.
-/

namespace WeakForm

namespace Expr

variable {R : Type}

/-! ## The value of a component -/

section Component

variable [Scalar R] {a b e s : Expr R} {c : List Nat} {σ : Env}

omit [Scalar R] in
theorem rank_eq_zero (h : e.shape = []) : e.rank = 0 :=
  congrArg List.length h

/-- The positions of a component that an operand is taken at. -/
theorem length_take_operands {op : BinaryOp} (happly : op.apply a b = .ok (binary op a b))
    (hl : c.length = (binary op a b).rank) :
    (c.take a.rank).length = a.rank ∧ (c.take b.rank).length = b.rank := by
  -- A product splits the component; the other operators hand it on or take scalars.
  cases op with
  | product => exact length_take_rank happly hl
  | sum =>
    -- summands have one shape
    have hb : b.rank = a.rank := congrArg List.length (add_built happly).1.symm
    rw [rank, shape_binary] at hl
    exact ⟨List.length_take_of_le hl.ge, List.length_take_of_le (hb.trans hl.symm).le⟩
  | division =>
    rw [rank, shape_binary] at hl
    -- a divisor is scalar
    rw [rank_eq_zero (div_built happly).1]
    exact ⟨List.length_take_of_le hl.ge, rfl⟩
  | power =>
    -- base and exponent are scalar
    obtain ⟨hsa, hsb, -⟩ := pow_built happly
    rw [rank_eq_zero hsa, rank_eq_zero hsb]
    exact ⟨rfl, rfl⟩

section Ring

variable {A : Type} [CommRing A] {M : Model R A} {leaves : Expr R → A}

/-- The leaf of a chain has the value of the chain. -/
theorem value_leafAt (hm : e.isModifiedTerminal) (σ' : Env) :
    (e.leafAt c σ).value (M.withLeaves leaves) [] σ' = e.value (M.withLeaves leaves) c σ := by
  -- a position that is fixed does not depend on the others
  have hfixed : ∀ j, σ'.resolve (σ.fix j) = σ.resolve j := fun j => rfl
  have hpositions : (c.map Index.fixed).map σ'.resolve = c := by
    rw [List.map_map]
    exact List.map_id c
  rw [← value_mapIndices hm hfixed c, leafAt]
  split
  · next hc => rw [hc]
  · rw [value_unary_indexed, hpositions]

/-- The component of a leaf has its value there. -/
theorem value_leafComponent (hM : M.Exact) (hm : e.isModifiedTerminal)
    (h : e.leafComponent c σ = some s) (σ' : Env) :
    s.value (M.withLeaves leaves) [] σ' = e.value (M.withLeaves leaves) c σ := by
  cases hz : e.isZero with
  | true =>
    rw [leafComponent, if_pos hz] at h
    cases h
    rw [value_of_isZero (hM.withLeaves leaves) hz]
    exact value_zero _ _ _ _ _
  | false =>
    obtain ⟨rfl, -⟩ := (leafComponent_eq_some hz).mp h
    exact value_leafAt hm σ'

/-- A sum of terms has the sum of their values. -/
theorem value_sumTerms (hM : M.Exact) {term : Nat → Option (Expr R)} {v : Nat → A} {n : Nat}
    (hterm : ∀ j x, term j = some x → x.value M [] σ = v j) (h : sumTerms term n = some s) :
    s.value M [] σ = ∑ j ∈ Finset.range n, v j := by
  cases n with
  | zero => cases h
  | succ n =>
    rw [sumTerms] at h
    induction n generalizing s with
    | zero => rw [hterm 0 s h, Finset.sum_range_one]
    -- The sum is built from the left: all terms but the last, then the last.
    | succ n ih =>
      obtain ⟨x, hx, h⟩ := Option.bind_eq_some_iff.mp h
      obtain ⟨y, hy, h⟩ := Option.bind_eq_some_iff.mp h
      rw [value_add hM (toOption_eq_some.mp h), ih hx, hterm _ y hy,
        Finset.sum_range_succ _ (n + 1)]

/-- On scalars an operator has the meaning that it has at the components they stand for. -/
theorem meaning_component {op : BinaryOp} (happly : op.apply a b = .ok (binary op a b))
    (hl : c.length = (binary op a b).rank) {f g f' g' : List Nat → Env → A} {σ' : Env}
    (hf : f [] σ' = f' (c.take a.rank) σ) (hg : g [] σ' = g' (c.take b.rank) σ) :
    op.meaning M 0 0 f g [] σ' = op.meaning M a.rank b.rank f' g' c σ := by
  rw [rank, shape_binary] at hl
  -- where an operand has the axes of the result, all of the component is its own
  have hall : ∀ {x : Expr R}, c.length = x.rank → c.take x.rank = c :=
    fun hx => hx ▸ List.take_length
  cases op with
  | sum =>
    have hb : a.rank = b.rank := congrArg List.length (add_built happly).1
    rw [hall hl] at hf
    rw [hall (hl.trans hb)] at hg
    exact congrArg₂ (· + ·) hf hg
  | product => exact congrArg₂ (· * ·) hf hg
  | division =>
    -- a divisor is scalar, so it has one component
    rw [hall hl] at hf
    rw [rank_eq_zero (div_built happly).1] at hg
    exact congrArg₂ M.quotient hf hg
  | power =>
    obtain ⟨hsa, hsb, -⟩ := pow_built happly
    rw [hall (hl.trans (rank_eq_zero hsa).symm)] at hf
    rw [rank_eq_zero hsb] at hg
    exact congrArg₂ M.power hf hg

end Ring

section Field

variable {K : Type} [Field K] {M : Model R K} {leaves : Expr R → K}

/-- **A component has the value of the expression there**, whatever the values of the scalar
leaves. -/
theorem value_component (hM : M.Exact) (hq : M.ExactQuotients) (hfun : M.ExactFunctions)
    (hc : Canonical e) (hl : c.length = e.rank) (h : e.component c σ = some s) (σ' : Env) :
    s.value (M.withLeaves leaves) [] σ' = e.value (M.withLeaves leaves) c σ := by
  have hM' := hM.withLeaves leaves
  have hq' := hq.withLeaves leaves
  have hfun' := hfun.withLeaves leaves
  induction hc generalizing c σ s with
  | leaf => exact value_leafComponent hM rfl h σ'
  | listTensor => cases h
  | @unary op a hca happly ih =>
    rw [component] at h
    split at h
    · next hm => exact value_leafComponent hM hm h σ'
    rw [rank, shape_unary] at hl
    -- an operator outside of chains computes with the components of its operand
    cases op with
    | math f =>
      -- an elementary function takes a scalar
      obtain ⟨x, hx, h⟩ := Option.bind_eq_some_iff.mp h
      have hla : c.length = a.rank := hl.trans (congrArg List.length (math_built happly).1.symm)
      rw [value_math hM' hfun' (toOption_eq_some.mp h), ih hla hx, value_unary_math]
    | abs =>
      obtain ⟨x, hx, h⟩ := Option.bind_eq_some_iff.mp h
      rw [value_abs hM' hfun' (toOption_eq_some.mp h), ih hl hx, value_unary_abs]
    -- the sum over positions is a sum of components
    | indexSum i => exact value_sumTerms hM' (fun j x hx => ih hl hx) h
    | indexed is =>
      exact ih ((List.length_map _).trans (index_built happly).1) h
    | componentTensor | restricted | grad | referenceGrad | spatialDerivative | averaged
      | labelled => cases h
  | @binary op a b hca hcb happly iha ihb =>
    obtain ⟨x, y, hx, hy, hs⟩ := binaryComponent_eq_some.mp h
    obtain ⟨hla, hlb⟩ := length_take_operands happly hl
    -- components are scalar
    have hrank : ∀ {z : Expr R}, z.isScalar → z.rank = 0 :=
      fun hz => rank_eq_zero (isScalar_iff.mp hz).1
    have hnil : ([] : List Nat).length = s.rank := (hrank (component_isScalar h)).symm
    rw [value_binary_apply hM' hq' hfun' hs hnil,
      hrank (component_isScalar hx), hrank (component_isScalar hy), value_node₂]
    exact meaning_component happly hl (iha hla hx) (ihb hlb hy)

end Field

end Component

/-! ## The components of an expression -/

/-- The list has a scalar expression for each component and all positions of the free
indices, with the value of the expression there. -/
structure Scalarized {A : Type} [Scalar R] [CommRing A] (M : Model R A) (e : Expr R)
    (as : Array (Expr R)) : Prop where
  size : as.size = shapeSize e.shape * e.free.size
  entry : ∀ c σ, InShape c e.shape → e.free.InRange σ →
    ∃ s, as[e.placeAt c σ]? = some s ∧ s.isScalar ∧ ∀ σ', s.value M [] σ' = e.value M c σ

section Scalarize

variable {K : Type} [Scalar R] [DecidableEq R] [Field K] {M : Model R K} {e : Expr R}
  {as : Array (Expr R)}

/-- **Scalarization computes the tensor**, one entry per component and positions. -/
theorem scalarize_scalarized (hM : M.Exact) (hq : M.ExactQuotients) (hfun : M.ExactFunctions)
    (leaves : Expr R → K) (hc : Canonical e) (h : scalarize e = .ok as) :
    Scalarized (M.withLeaves leaves) e as := by
  have hlist := (componentwise_scalarize hc h).1
  refine ⟨hlist.size, fun c σ hcs hσ => ?_⟩
  obtain ⟨s, hs⟩ := hlist.determined c σ hcs hσ
  exact ⟨s, (hlist.entry c σ hcs hσ).trans hs, component_isScalar hs,
    value_component hM hq hfun hc hcs.length hs⟩

/-- **The scalar components of built expressions have their values.** Where the components
of several expressions are found with one table of shared subexpressions, those of each
expression are one per component and positions of the free indices, with the axes outside
and the indices, in ascending order, inside; and each has the value of the expression there,
whatever the values of the scalar leaves. -/
theorem scalarizeAll_value (hM : M.Exact) (hq : M.ExactQuotients) (hfun : M.ExactFunctions)
    (leaves : Expr R → K) {es : List (Expr R)} {k : Nat} (he : es[k]? = some e) (hb : Built e)
    (h : (scalarizeAll es)[k]? = some (.ok as)) :
    as.size = shapeSize e.shape * e.free.size ∧
      ∀ c ∈ components e.shape, ∀ p ∈ components e.free.dims,
        ∃ s, as[flatten c e.shape * e.free.size + flatten p e.free.dims]? = some s ∧
          s.isScalar ∧ ∀ σ σ' : Env, s.value (M.withLeaves leaves) [] σ' =
            e.value (M.withLeaves leaves) c (σ.bind (e.free.map (·.id)) p) := by
  have hc := hb.canonical
  rw [scalarizeAll_eq, List.getElem?_map, he, Option.map_some, Option.some.injEq] at h
  have hs := scalarize_scalarized hM hq hfun leaves hc h
  refine ⟨hs.size, fun c hcm p hpm => ?_⟩
  rw [mem_components] at hcm hpm
  -- the free indices are bound to positions in their ranges
  have hl : (e.free.map (·.id)).length = p.length := by
    rw [List.length_map, hpm.length, FreeIndices.dims, List.length_map]
  have hpositions : ∀ σ : Env, e.free.positions (σ.bind (e.free.map (·.id)) p) = p := fun σ => by
    have := map_bind hc.sorted.nodup_ids hl σ
    rwa [List.map_map] at this
  have hrange : ∀ σ : Env, e.free.InRange (σ.bind (e.free.map (·.id)) p) := fun σ => by
    refine FreeIndices.inRange_of_inShape ?_
    rw [hpositions]
    exact hpm
  -- the place is the same for all environments that agree on the free indices
  obtain ⟨s, hplace, hscalar, -⟩ := hs.entry c _ hcm (hrange fun _ => 0)
  rw [placeAt, hpositions] at hplace
  refine ⟨s, hplace, hscalar, fun σ σ' => ?_⟩
  -- one component has the value for every environment
  obtain ⟨s', hplace', -, hvalue⟩ := hs.entry c _ hcm (hrange σ)
  rw [placeAt, hpositions, hplace] at hplace'
  cases hplace'
  exact hvalue σ'

end Scalarize

/-! ### The product of two vectors -/

namespace TwoVectors

def vector (count : Nat) : Expr ℚ :=
  coefficient ⟨count, ⟨1, 1, [2]⟩, .ofCell .triangle 0⟩

/-- The component of a vector that an index selects. -/
def entry (count : Nat) (j : Index) : Expr ℚ :=
  unary (.indexed [j]) (vector count)

def product : Expr ℚ :=
  binary .product (entry 0 (.free 0)) (entry 1 (.free 0))

/-- The products of the components, summed over a free index. -/
def implicit : Expr ℚ :=
  unary (.indexSum 0) product

/-- The products of the components, one after the other. -/
def explicit : Expr ℚ :=
  binary .sum (binary .product (entry 0 (.fixed 0)) (entry 1 (.fixed 0)))
    (binary .product (entry 0 (.fixed 1)) (entry 1 (.fixed 1)))

/-- The entries of the two vectors are built by the constructors. -/
theorem built_entry {count : Nat} (h : count = 0 ∨ count = 1) : Built (entry count (.free 0)) := by
  have happly :
      UnaryOp.apply (.indexed [.free 0]) (vector count) = .ok (entry count (.free 0)) := by
    rcases h with rfl | rfl
    · cbv
    · cbv
  exact .unary (.coefficient _) happly

/-- The product of entries is built by the constructors. -/
theorem built_product : Built product := by
  have hproduct :
      BinaryOp.apply .product (entry 0 (.free 0)) (entry 1 (.free 0)) = .ok product := by
    cbv
  exact .binary (built_entry (.inl rfl)) (built_entry (.inr rfl)) hproduct

/-- The implicit sum is built by the constructors. -/
theorem built_implicit : Built implicit := by
  have hsum : UnaryOp.apply (.indexSum 0) product = .ok implicit := by
    cbv
  exact .unary built_product hsum

/-- An entry has one component for every position of its free index. -/
theorem terminalScalars_entry {count : Nat} (h : count = 0 ∨ count = 1) :
    terminalScalars (entry count (.free 0)) =
      .ok #[entry count (.fixed 0), entry count (.fixed 1)] := by
  unfold terminalScalars
  simp only [fix, substitute_eq_rename]
  rcases h with rfl | rfl
  · with_unfolding_all rfl
  · with_unfolding_all rfl

theorem scalarize_entry {count : Nat} (h : count = 0 ∨ count = 1) :
    scalarize (entry count (.free 0)) =
      .ok #[entry count (.fixed 0), entry count (.fixed 1)] := by
  rw [scalarize.eq_def, if_pos (by rfl), terminalScalars_entry h]

/-- A product of entries has one component for every position of the shared index. -/
theorem scalarize_product : scalarize product =
    .ok #[binary .product (entry 0 (.fixed 0)) (entry 1 (.fixed 0)),
      binary .product (entry 0 (.fixed 1)) (entry 1 (.fixed 1))] := by
  rw [product, scalarize, if_neg (by simp [isModifiedTerminal]), scalarize_entry (.inl rfl),
    scalarize_entry (.inr rfl)]
  with_unfolding_all rfl

/-- The sum has one component, which is the explicit sum. -/
theorem scalarizeAll_implicit : scalarizeAll [implicit] = [.ok #[explicit]] := by
  rw [scalarizeAll_eq, List.map_cons, List.map_nil, implicit, scalarize,
    if_neg (by simp [isModifiedTerminal, UnaryOp.isModifier]), scalarize_product]
  with_unfolding_all rfl

end TwoVectors

/-- The one component of the product of two vectors is the sum that is written out. -/
theorem scalarizeAll_value_twoVectors :
    (scalarizeAll [TwoVectors.implicit])[0]? = some (.ok #[TwoVectors.explicit]) ∧
      ∀ σ : Env, TwoVectors.explicit.value
          ((Model.rational (fun _ _ => 0) fun _ _ _ _ _ => 0).withLeaves fun _ => 2) [] σ =
        TwoVectors.implicit.value
          ((Model.rational (fun _ _ => 0) fun _ _ _ _ _ => 0).withLeaves fun _ => 2) [] σ := by
  have h : (scalarizeAll [TwoVectors.implicit])[0]? = some (.ok #[TwoVectors.explicit]) := by
    rw [TwoVectors.scalarizeAll_implicit]
    rfl
  refine ⟨h, fun σ => ?_⟩
  have hfree : TwoVectors.implicit.free = [] := by cbv
  have hshape : TwoVectors.implicit.shape = [] := by cbv
  obtain ⟨-, hentry⟩ := scalarizeAll_value Model.rational_exact Model.rational_exactQuotients
    Model.rational_exactFunctions (fun _ => 2) rfl TwoVectors.built_implicit h
  -- the only component of a scalar without free indices
  obtain ⟨s, hs, -, hvalue⟩ := hentry [] (by simp [hshape]) []
    (by simp [hfree, FreeIndices.dims])
  have hplace : flatten [] TwoVectors.implicit.shape * TwoVectors.implicit.free.size +
      flatten [] TwoVectors.implicit.free.dims = 0 := by
    rw [hfree, hshape]
    rfl
  rw [hplace] at hs
  cases hs
  have := hvalue σ σ
  rwa [hfree, List.map_nil, Env.bind_nil] at this

end Expr

end WeakForm
