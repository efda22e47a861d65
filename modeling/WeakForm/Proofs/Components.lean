import WeakForm.Proofs.Admission
import WeakForm.Proofs.Strides

/-!
# Components without a layout

Scalarization lists components, and finds the operands of a component by their places in
other lists. What it lists can be told without any list: the component of an expression at
positions for its axes and its free indices is built from components of the operands at
positions that follow from these. Neither the order of the free indices nor the dimensions
of the axes have a part in that.

* `component` — the component of an expression, by recursion;
* `Componentwise`, `Scalarizable` — a list of all components, and the expressions that have one;
* `componentwise_scalarize`, `Scalarizable.scalarize` — scalarization computes the list, exactly
  where there is one;
* `Componentwise.ext` — the list is determined by the components.
-/

namespace WeakForm

/-! ## The component at given positions -/

/-- The operators of one operand that are scalarized by components. -/
def UnaryOp.ByComponents : UnaryOp → Prop
  | .math _ | .abs | .indexSum _ | .indexed _ => True
  | .componentTensor _ | .restricted _ | .grad | .referenceGrad | .spatialDerivative _
    | .averaged _ | .labelled _ => False

namespace Expr

variable {R : Type} [Scalar R]

/-- The component of a chain: zero, or its scalar leaf where that has a descriptor. -/
def leafComponent (e : Expr R) (c : List Nat) (σ : Env) : Option (Expr R) :=
  if e.isZero then some (zero [])
  else match (e.leafAt c σ).analyse with
    | .ok (some _) => some (e.leafAt c σ)
    | _ => none

/-- The sum of terms, up to the one with the given number. -/
def sumUpTo (term : Nat → Option (Expr R)) : Nat → Option (Expr R)
  | 0 => term 0
  | n + 1 => do ((← sumUpTo term n).add (← term (n + 1))).toOption

/-- The sum of a number of terms. There has to be one. -/
def sumTerms (term : Nat → Option (Expr R)) : Nat → Option (Expr R)
  | 0 => none
  | n + 1 => sumUpTo term n

/-- The component of an operator over `a`, out of the components of `a`. -/
def unaryComponent (op : UnaryOp) (a : Expr R) (of : List Nat → Env → Option (Expr R))
    (c : List Nat) (σ : Env) : Option (Expr R) :=
  match op with
  | .math f => do ((← of c σ).math f).toOption
  | .abs => do (← of c σ).abs.toOption
  | .indexSum i => sumTerms (fun j => of c (σ.bind [i] [j])) ((a.free.dim? i).getD 0)
  | .indexed is => of (is.map σ.resolve) σ
  | .componentTensor _ | .restricted _ | .grad | .referenceGrad | .spatialDerivative _
    | .averaged _ | .labelled _ => none

/-- The component of an operator over `a` and `b`, out of the components of both. -/
def binaryComponent (op : BinaryOp) (a b : Expr R) (ofA ofB : List Nat → Env → Option (Expr R))
    (c : List Nat) (σ : Env) : Option (Expr R) := do
  (op.apply (← ofA (c.take a.rank) σ) (← ofB (c.take b.rank) σ)).toOption

/-- The component of an expression at positions for its axes and for its free indices. -/
def component : Expr R → List Nat → Env → Option (Expr R)
  | leaf t, c, σ => leafComponent (leaf t) c σ
  | unary op a, c, σ =>
    if (unary op a).isModifiedTerminal then leafComponent (unary op a) c σ
    else unaryComponent op a (component a) c σ
  | binary op a b, c, σ => binaryComponent op a b (component a) (component b) c σ
  | listTensor _, _, _ => none

/-! ### One operator at a time -/

section Nodes

variable {a b e s : Expr R} {c : List Nat} {σ : Env}

/-- A chain has the components of a terminal. -/
theorem component_chain (hm : e.isModifiedTerminal) : e.component c σ = e.leafComponent c σ := by
  cases e with
  | leaf => rfl
  | unary => exact if_pos hm
  | binary | listTensor => cases hm

theorem component_zero (hz : e.isZero) : e.component c σ = some (zero []) := by
  obtain ⟨t, rfl⟩ := leaf_of_isConstantValue (isConstantValue_of_isZero hz)
  exact if_pos hz

/-- A terminal has a component where it can be analysed. -/
theorem leafComponent_of_not_isZero (hz : e.isZero = false) : e.leafComponent c σ =
    match (e.leafAt c σ).analyse with
    | .ok (some _) => some (e.leafAt c σ)
    | _ => none := by
  rw [leafComponent, hz, if_neg Bool.false_ne_true]

/-- The component is the terminal at its position. -/
theorem leafComponent_eq_some (hz : e.isZero = false) :
    e.leafComponent c σ = some s ↔ s = e.leafAt c σ ∧ ∃ m, s.analyse = .ok (some m) := by
  rw [leafComponent_of_not_isZero hz]
  split
  · next m hm =>
    rw [Option.some.injEq]
    constructor
    · rintro rfl
      exact ⟨rfl, m, hm⟩
    · rintro ⟨rfl, -⟩
      rfl
  · next hno =>
    constructor
    · intro h
      cases h
    · rintro ⟨rfl, m, hm⟩
      exact (hno m hm).elim

theorem component_binary (op : BinaryOp) : (binary op a b).component c σ =
    binaryComponent op a b a.component b.component c σ := rfl

/-- A component of a node is built from one of each operand. -/
theorem binaryComponent_eq_some {op : BinaryOp} {ofA ofB : List Nat → Env → Option (Expr R)} :
    binaryComponent op a b ofA ofB c σ = some s ↔
      ∃ x y, ofA (c.take a.rank) σ = some x ∧ ofB (c.take b.rank) σ = some y ∧
        op.apply x y = .ok s := by
  simp [binaryComponent, Option.bind_eq_some_iff, toOption_eq_some]

omit [Scalar R] in
/-- The scalar leaf of an indexed chain is that of the chain, at the component which the
indices select. -/
theorem leafAt_indexed {is : List Index} (hne : is ≠ []) :
    (unary (.indexed is) a).leafAt [] σ = a.leafAt (is.map σ.resolve) σ := by
  have hne : is.map σ.resolve ≠ [] := by simpa using hne
  rw [leafAt, leafAt, if_pos rfl, if_neg hne, mapIndices, UnaryOp.mapIndices, List.map_map]
  rfl

/-- A component of a node is built from components of its operand, also in a chain. -/
theorem component_unary {op : UnaryOp} (happly : op.apply a = .ok (unary op a))
    (hop : op.ByComponents) (hc : InShape c (unary op a).shape) :
    (unary op a).component c σ = unaryComponent op a a.component c σ := by
  cases hm : (unary op a).isModifiedTerminal with
  | false => exact if_neg (by rw [hm]; exact Bool.false_ne_true)
  | true =>
    -- of the operators of a chain, only an indexing has components of its own
    cases op with
    | indexed is =>
      rw [shape_unary] at hc
      obtain rfl : c = [] := List.eq_nil_of_length_eq_zero hc.length
      have hz : a.isZero = false := operand_not_zero rfl happly
      rw [component_chain hm, leafComponent_of_not_isZero rfl,
        leafAt_indexed (indexed_node happly).1]
      rw [isModifiedTerminal, Bool.and_eq_true] at hm
      exact (leafComponent_of_not_isZero hz).symm.trans (component_chain hm.2).symm
    | math | abs | indexSum => cases hm
    | componentTensor | restricted | grad | referenceGrad | spatialDerivative | averaged
      | labelled => cases hop

end Nodes

/-! ## Lists of components -/

section Lists

variable {a b e : Expr R} {as bs rs : Array (Expr R)}

/-- A list has, at the place of a component, the component. -/
structure Componentwise (e : Expr R) (as : Array (Expr R)) : Prop where
  size : as.size = shapeSize e.shape * e.free.size
  entry : ∀ c σ, InShape c e.shape → e.free.InRange σ → as[e.placeAt c σ]? = e.component c σ

/-- Every component of an expression is built. -/
def Determined (e : Expr R) : Prop :=
  ∀ c σ, InShape c e.shape → e.free.InRange σ → ∃ s, e.component c σ = some s

/-- A list of components has them all. -/
theorem Componentwise.determined (h : Componentwise e as) : e.Determined := by
  intro c σ hc hσ
  have hlt := placeAt_lt hc hσ
  rw [← h.size] at hlt
  exact ⟨_, (h.entry c σ hc hσ).symm.trans (Array.getElem?_eq_getElem hlt)⟩

/-- **The list is determined by the components.** -/
theorem Componentwise.ext {e' : Expr R} (h : Componentwise e as) (h' : Componentwise e' bs)
    (hsorted : e.free.Sorted) (hshape : e'.shape = e.shape) (hfree : e'.free = e.free)
    (heq : ∀ c σ, InShape c e.shape → e.free.InRange σ → e'.component c σ = e.component c σ) :
    bs = as := by
  refine Array.ext_getElem? fun k => ?_
  by_cases hk : k < shapeSize e.shape * e.free.size
  -- every place is that of a component
  · obtain ⟨c, σ, hc, hσ, rfl⟩ := exists_placeAt hsorted hk
    have hplace : e'.placeAt c σ = e.placeAt c σ := by rw [placeAt, placeAt, hshape, hfree]
    rw [h.entry c σ hc hσ, ← heq c σ hc hσ, ← hplace]
    exact h'.entry c σ (hshape ▸ hc) (hfree ▸ hσ)
  -- past the end there is nothing in either
  · have hk' : as.size ≤ k := by rw [h.size]; omega
    have hk'' : bs.size ≤ k := by rw [h'.size, hshape, hfree]; omega
    rw [Array.getElem?_eq_none hk', Array.getElem?_eq_none hk'']

/-- A computation that returns the components of an expression, exactly where it has all. -/
structure Lists (x : Result R (Array (Expr R))) (e : Expr R) : Prop where
  sound : ∀ as, x = .ok as → Componentwise e as
  complete : e.Determined → ∃ as, x = .ok as

/-! ### Lists that are made place by place -/

omit [Scalar R] in
theorem toOption_scalarAt {k : Nat} : (scalarAt as k).toOption = as[k]? := by
  unfold scalarAt
  cases as[k]? <;> rfl

/-- What is read at the place of a component is the component. -/
theorem Componentwise.scalarAt (ha : Componentwise a as) {c : List Nat} {σ : Env} {k : Nat}
    (hc : InShape c a.shape) (hσ : a.free.InRange σ) (hk : k = a.placeAt c σ) :
    (Expr.scalarAt as k).toOption = a.component c σ := by
  rw [toOption_scalarAt, hk, ha.entry c σ hc hσ]

omit [Scalar R] in
/-- A list of results is there if each of them is. -/
theorem exists_toArray {α : Type} {f : α → Result R (Expr R)} {items : List α}
    (h : ∀ x ∈ items, ∃ s, f x = .ok s) :
    ∃ rs, (do return (← items.mapM f).toArray : Result R (Array (Expr R))) = .ok rs := by
  obtain ⟨scalars, hscalars⟩ := exists_mapM_of_forall h
  exact ⟨_, bind_eq_ok.mpr ⟨scalars, hscalars, rfl⟩⟩

/-- A list with one item for each place, from which the component is made. -/
theorem lists_mapM {α : Type} {places : List α} {entry : α → Result R (Expr R)}
    (hsorted : e.free.Sorted) (hlength : places.length = shapeSize e.shape * e.free.size)
    (hentry : ∀ c σ, InShape c e.shape → e.free.InRange σ →
      ∃ x, places[e.placeAt c σ]? = some x ∧ (entry x).toOption = e.component c σ) :
    Lists (do return (← places.mapM entry).toArray) e where
  sound as h := by
    obtain ⟨scalars, hscalars, h⟩ := bind_eq_ok.mp h
    cases h
    refine ⟨?_, fun c σ hc hσ => ?_⟩
    · rw [List.size_toArray, length_of_mapM hscalars, hlength]
    · obtain ⟨x, hx, hcomponent⟩ := hentry c σ hc hσ
      obtain ⟨s, hs, he⟩ := getElem?_of_mapM hscalars hx
      rw [← hcomponent, toOption_eq_some.mpr he]
      simpa using hs
  complete h := by
    refine exists_toArray fun x hx => ?_
    -- every item stands in the place of a component
    obtain ⟨k, hk, rfl⟩ := List.mem_iff_getElem.mp hx
    obtain ⟨c, σ, hc, hσ, hplace⟩ := exists_placeAt hsorted (hlength ▸ hk)
    obtain ⟨y, hy, hcomponent⟩ := hentry c σ hc hσ
    rw [hplace, List.getElem?_eq_getElem hk, Option.some.injEq] at hy
    obtain ⟨s, hs⟩ := h c σ hc hσ
    exact ⟨s, toOption_eq_some.mp (by rw [hy, hcomponent, hs])⟩

/-- The components of a product are made from those that the strides lead to. -/
theorem lists_product [DecidableEq R] (ha : Componentwise a as) (hb : Componentwise b bs)
    (hca : Canonical a) (hcb : Canonical b)
    (happly : BinaryOp.apply .product a b = .ok (binary .product a b)) :
    Lists (productScalars a b as bs) (binary .product a b) := by
  -- the indices of the product are those of both factors
  have hc : Canonical (binary .product a b) := .binary hca hcb happly
  have hmem : ∀ f, f ∈ (binary .product a b).free ↔ f ∈ a.free ∨ f ∈ b.free := fun f =>
    mem_free_binary hca.sorted hcb.sorted happly
  have hscalar := (mul_built happly).1
  have hshape : (binary .product a b).shape = if a.shape = [] then b.shape else a.shape :=
    (shape_binary _ a b).trans product_shape
  -- one factor has no axes, and the other has those of the product
  have hshapea : a.shape = [] ∨ a.shape = (binary .product a b).shape := by
    rw [hshape]
    split
    · next hnil => exact .inl hnil
    · exact .inr rfl
  have hshapeb : b.shape = [] ∨ b.shape = (binary .product a b).shape := by
    rw [hshape]
    split
    · exact .inr rfl
    · next hne => exact .inl (hscalar.resolve_left hne)
  generalize hp : binary .product a b = p at *
  dsimp only [productScalars]
  rw [hp]
  -- a row has all assignments of the free indices
  have hrow : ∀ k ∈ List.range (shapeSize p.shape),
      ((WeakForm.components p.free.dims).map (k, ·)).length = p.free.size := fun k _ => by
    rw [List.length_map, length_components]
    rfl
  refine lists_mapM hc.sorted ?_ fun c σ hcs hσ => ⟨(flatten c p.shape, p.free.positions σ), ?_, ?_⟩
  · rw [length_rows hrow, List.length_range]
  · rw [placeAt, getElem?_flatMap hrow (List.getElem?_range (flatten_lt hcs))
      (flatten_lt hσ.inShape), List.getElem?_map, getElem?_components hσ.inShape, Option.map_some]
  -- one component of each factor, read at strides that are their places
  · obtain ⟨hcsa, hcsb⟩ := inShape_factors hscalar (hshape ▸ hcs)
    have hfreea : ∀ f ∈ a.free, f ∈ p.free := fun f hf => (hmem f).mpr (.inl hf)
    have hfreeb : ∀ f ∈ b.free, f ∈ p.free := fun f hf => (hmem f).mpr (.inr hf)
    rw [toOption_bind, ha.scalarAt hcsa (fun f hf => hσ f (hfreea f hf))
      (place_factor hc.sorted hca.sorted hfreea hshapea), ← hp, component_binary, binaryComponent]
    refine congrArg (Option.bind _) (funext fun s => ?_)
    rw [hp, toOption_bind, hb.scalarAt hcsb (fun f hf => hσ f (hfreeb f hf))
      (place_factor hc.sorted hcb.sorted hfreeb hshapeb)]
    exact congrArg (Option.bind _) (funext fun t => toOption_lift _)

/-- Terms that are added one after the other, without their errors. -/
theorem toOption_foldlM_add {first : Result R (Expr R)} {term : Nat → Result R (Expr R)}
    {component : Nat → Option (Expr R)} {n : Nat} (hfirst : first.toOption = component 0)
    (h : ∀ j < n, (term j).toOption = component (j + 1)) :
    (do
      let sum ← first
      (List.range n).foldlM
        (fun (sum : Expr R) j => do (sum.add (← term j) : Checked R _)) sum).toOption =
      sumUpTo component n := by
  induction n with
  | zero =>
    rw [sumUpTo, ← hfirst, toOption_bind]
    cases first <;> rfl
  | succ n ih =>
    have ih := ih fun j hj => h j (by omega)
    -- the last term is added to the sum of the others
    rw [List.range_succ]
    simp only [List.foldlM_append, List.foldlM_cons, List.foldlM_nil, bind_pure, ← bind_assoc]
    rw [toOption_bind, ih, sumUpTo, ← h n (Nat.lt_succ_self n)]
    refine congrArg (Option.bind _) (funext fun s => ?_)
    rw [toOption_bind]
    exact congrArg (Option.bind _) (funext fun t => toOption_lift _)

/-- The components of a sum are added up along the index, in the split layout of the summand. -/
theorem lists_indexSum [DecidableEq R] {i : IndexId} (ha : Componentwise a as)
    (hca : Canonical a) (happly : UnaryOp.apply (.indexSum i) a = .ok (unary (.indexSum i) a)) :
    Lists (sumScalars i a as) (unary (.indexSum i) a) := by
  have hc : Canonical (unary (.indexSum i) a) := .unary hca happly
  have hshape : (unary (.indexSum i) a).shape = a.shape := shape_unary _ a
  have hfree : (unary (.indexSum i) a).free = a.free.erase i := free_unary _ a
  -- the dimension of the summed index
  obtain ⟨d, hd⟩ := FreeIndices.has_iff.mp (sumOver_built happly).1
  have hdim : a.free.dim? i = some d := hca.sorted.dim?_eq_some.mpr hd
  unfold sumScalars
  rw [hdim]
  dsimp only
  have hrow : ∀ p ∈ List.range (shapeSize a.shape * (a.free.before i).size),
      ((List.range (a.free.behind i).size).map (p, ·)).length = (a.free.behind i).size :=
    fun p _ => by rw [List.length_map, List.length_range]
  refine lists_mapM hc.sorted ?_ fun c σ hcs hσ =>
    ⟨(a.frontPlace i c σ, a.behindPlace i σ), ?_, ?_⟩
  · rw [length_rows hrow, List.length_range, hshape, hfree, (hca.sorted.split hd).2,
      FreeIndices.size_append, Nat.mul_assoc]
  · rw [hshape] at hcs
    rw [hfree] at hσ
    have hbehind := behindPlace_lt hca.sorted hd hσ
    rw [place_sum hca.sorted hd hshape hfree, getElem?_flatMap hrow
      (List.getElem?_range (frontPlace_lt hca.sorted hd hcs hσ)) hbehind, List.getElem?_map,
      List.getElem?_range hbehind, Option.map_some]
  · rw [hshape] at hcs
    -- a term is read at the positions of the sum and one for its index
    have hterm : ∀ j < d, ∀ k, k = a.placeAt c (σ.bind [i] [j]) →
        (scalarAt as k).toOption = a.component c (σ.bind [i] [j]) := fun j hj k hk =>
      ha.scalarAt hcs (inRange_bind hca.sorted (hfree ▸ hσ) hdim hj) hk
    rw [component_unary happly trivial (hshape.symm ▸ hcs), unaryComponent, hdim,
      Option.getD_some]
    cases d with
    | zero =>
      -- there is nothing to read
      have hempty : as.size = 0 := by
        have hmem : 0 ∈ a.free.dims := List.mem_map_of_mem (f := (·.dim)) hd
        rw [ha.size, FreeIndices.size_eq_prod, List.prod_eq_zero hmem, Nat.mul_zero]
      rw [toOption_bind, toOption_scalarAt, Array.getElem?_eq_none (by omega)]
      rfl
    | succ n =>
      have hplace := place_summand (c := c) (σ := σ) hca.sorted hd
      have hfirst := hplace 0
      rw [Nat.zero_mul, Nat.add_zero] at hfirst
      exact toOption_foldlM_add (hterm 0 n.succ_pos _ hfirst.symm) fun j hj =>
        hterm (j + 1) (Nat.succ_lt_succ hj) _ (hplace (j + 1)).symm

/-- The components of an indexing are those that its sources select. -/
theorem lists_indexed [DecidableEq R] {is : List Index} (ha : Componentwise a as)
    (hca : Canonical a) (happly : UnaryOp.apply (.indexed is) a = .ok (unary (.indexed is) a)) :
    Lists (indexedScalars is a as) (unary (.indexed is) a) := by
  obtain ⟨hl, hok⟩ := index_ok happly
  have hc : Canonical (unary (.indexed is) a) := .unary hca happly
  have hmem : ∀ f ∈ a.free, f ∈ (unary (.indexed is) a).free := fun f hf =>
    (mem_free_unary happly).mpr (.inl ⟨hf, List.not_mem_nil⟩)
  have hshape : (unary (.indexed is) a).shape = [] := shape_unary _ a
  -- free entries, and the indices of the operand, are free indices of the result
  obtain ⟨axes, haxes⟩ : ∃ axes, is.mapM (fun j => (liftM (AxisSource.ofIndex
      (unary (.indexed is) a).free j : Checked R _) : Result R _)) = .ok axes :=
    exists_mapM_of_forall fun j hj => by
      obtain ⟨source, hsource⟩ := AxisSource.exists_ofIndex (R := R) (j := j)
        fun i hi => has_of_entry happly (hi ▸ hj)
      exact ⟨source, lift_eq_ok.mpr hsource⟩
  obtain ⟨indices, hindices⟩ : ∃ indices, a.free.mapM (fun f => (liftM
      ((unary (.indexed is) a).free.place f.id : Checked R _) : Result R _)) = .ok indices :=
    exists_mapM_of_forall fun f hf => by
      obtain ⟨k, hk⟩ := FreeIndices.exists_place (R := R) (FreeIndices.has_of_mem (hmem f hf))
      exact ⟨k, lift_eq_ok.mpr hk⟩
  unfold indexedScalars
  dsimp only
  rw [haxes]
  simp only [bind, Except.bind]
  rw [hindices]
  -- one scalar for each assignment of the free indices
  refine lists_mapM hc.sorted ?_ fun c σ hcs hσ =>
    ⟨(unary (.indexed is) a).free.positions σ, ?_, ?_⟩
  · rw [length_components, hshape, shapeSize_nil, Nat.one_mul]
    rfl
  · rw [hshape] at hcs
    obtain rfl : c = [] := List.eq_nil_of_length_eq_zero hcs.length
    rw [placeAt, hshape]
    show (WeakForm.components _)[0 * _ + _]? = _
    rw [Nat.zero_mul, Nat.zero_add, getElem?_components hσ.inShape]
  · rw [AxisSource.map_position haxes, FreeIndices.map_place hindices,
      component_unary happly trivial hcs, unaryComponent]
    exact ha.scalarAt (hok.inShape hl hσ) (fun f hf => hσ f (hmem f hf)) rfl

/-! ### Combinations of components -/

/-- A function of each component. -/
theorem lists_each {op : UnaryOp} (ha : Componentwise a as) (hsorted : e.free.Sorted)
    (hshape : e.shape = a.shape) (hfree : e.free = a.free)
    (hcomponent : ∀ c σ, InShape c e.shape →
      e.component c σ = (a.component c σ).bind fun s => (op.apply s).toOption) :
    Lists (eachScalar op as) e where
  sound rs h := by
    obtain ⟨hsize, hentry⟩ := eachScalar_ok h
    refine ⟨by rw [hsize, ha.size, hshape, hfree], fun c σ hc hσ => ?_⟩
    -- position by position
    obtain ⟨s, hs⟩ := ha.determined c σ (hshape ▸ hc) (hfree ▸ hσ)
    have hplace : as[a.placeAt c σ]? = some s :=
      (ha.entry c σ (hshape ▸ hc) (hfree ▸ hσ)).trans hs
    obtain ⟨r, hr, happly⟩ := hentry _ s hplace
    rw [hcomponent c σ hc, hs, Option.bind_some, toOption_eq_some.mpr happly, placeAt, hshape,
      hfree]
    exact hr
  complete h := by
    have hmapM : ∃ rs, as.toList.mapM
        (fun s => (liftM (op.apply s) : Result R (Expr R))) = .ok rs := by
      refine exists_mapM_of_forall fun s hs => ?_
      -- the entry is a component, and the function of it is one
      obtain ⟨k, hk, rfl⟩ := Array.mem_iff_getElem.mp (Array.mem_toList_iff.mp hs)
      obtain ⟨c, σ, hc, hσ, hplace⟩ := exists_placeAt (hfree ▸ hsorted) (ha.size ▸ hk)
      have hs := ha.entry c σ hc hσ
      rw [hplace, Array.getElem?_eq_getElem hk] at hs
      obtain ⟨r, hr⟩ := h c σ (hshape ▸ hc) (hfree ▸ hσ)
      rw [hcomponent c σ (hshape ▸ hc), ← hs, Option.bind_some] at hr
      exact ⟨r, lift_eq_ok.mpr (toOption_eq_some.mp hr)⟩
    obtain ⟨rs, hrs⟩ := hmapM
    refine ⟨rs.toArray, ?_⟩
    -- the loop over the operand succeeds
    rw [eachScalar, Array.mapM_eq_mapM_toList]
    exact map_eq_ok.mpr ⟨rs, hrs, rfl⟩

/-- An operand with the attributes of the result, or one scalar. -/
def Broadcasts (a e : Expr R) : Prop :=
  a.isScalar ∨ e.HasAttributes a.shape a.free

omit [Scalar R] in
/-- Components of the result, cut to the operand's rank, are components of it. -/
theorem Broadcasts.inShape (h : Broadcasts a e) {c : List Nat} (hc : InShape c e.shape) :
    InShape (c.take a.rank) a.shape := by
  rcases h with hs | ⟨hshape, -⟩
  · rw [rank, (isScalar_iff.mp hs).1]
    exact inShape_nil
  · rw [hshape] at hc
    rwa [take_rank hc]

omit [Scalar R] in
/-- Positions in range for the result are in range for the operand. -/
theorem Broadcasts.inRange (h : Broadcasts a e) {σ : Env} (hσ : e.free.InRange σ) :
    a.free.InRange σ := by
  rcases h with hs | ⟨-, hfree⟩
  · intro f hf
    rw [(isScalar_iff.mp hs).2] at hf
    cases hf
  · exact hfree ▸ hσ

omit [Scalar R] in
/-- A scalar has one component. -/
theorem size_scalar (hs : a.isScalar) : shapeSize a.shape * a.free.size = 1 := by
  obtain ⟨hshape, hfree⟩ := isScalar_iff.mp hs
  rw [hshape, hfree]
  rfl

omit [Scalar R] in
/-- The place that is picked of an operand is that of its component. -/
theorem Broadcasts.place (h : Broadcasts a e) (hsize : as.size = shapeSize a.shape * a.free.size)
    {c : List Nat} {σ : Env} (hc : InShape c e.shape) (hσ : e.free.InRange σ) :
    (if as.size = 1 then 0 else e.placeAt c σ) = a.placeAt (c.take a.rank) σ := by
  have hlt := placeAt_lt (h.inShape hc) (h.inRange hσ)
  rw [← hsize] at hlt
  split
  · next hone => omega
  · next hone =>
    rcases h with hs | ⟨hshape, hfree⟩
    · exact absurd (hsize.trans (size_scalar hs)) hone
    · rw [placeAt, placeAt, hshape, hfree, rank, flatten_take]

/-- The operands of algebra other than products. -/
theorem broadcasts {op : BinaryOp} (hop : op ≠ .product)
    (happly : op.apply a b = .ok (binary op a b)) :
    Broadcasts a (binary op a b) ∧ Broadcasts b (binary op a b) ∧
      ((binary op a b).HasAttributes a.shape a.free ∨
        (binary op a b).HasAttributes b.shape b.free) := by
  obtain ⟨hs, hf⟩ := attributes_node₂ op a b
  cases op with
  | sum =>
    obtain ⟨hshape, hfree, -⟩ := add_built happly
    have ha : (binary .sum a b).HasAttributes a.shape a.free := ⟨hs, hf⟩
    exact ⟨.inr ha, .inr ⟨hs.trans hshape, hf.trans hfree⟩, .inl ha⟩
  | product => exact absurd rfl hop
  | division =>
    obtain ⟨hsb, -, hfree, -⟩ := div_built happly
    have hf : (binary .division a b).free = a.free.union b.free := hf
    -- the divisor is one scalar, the dividend is, or both have the attributes of the result
    rcases hfree with hfb | ⟨hsa, hfa | heq⟩
    · rw [hfb, FreeIndices.union_nil] at hf
      exact ⟨.inr ⟨hs, hf⟩, .inl (isScalar_iff.mpr ⟨hsb, hfb⟩), .inl ⟨hs, hf⟩⟩
    · rw [hfa, FreeIndices.nil_union] at hf
      have hb : (binary .division a b).HasAttributes b.shape b.free :=
        ⟨hs.trans (hsa.trans hsb.symm), hf⟩
      exact ⟨.inl (isScalar_iff.mpr ⟨hsa, hfa⟩), .inr hb, .inr hb⟩
    · rw [← heq, FreeIndices.union_self] at hf
      exact ⟨.inr ⟨hs, hf⟩, .inr ⟨hs.trans (hsa.trans hsb.symm), hf.trans heq⟩, .inl ⟨hs, hf⟩⟩
  | power =>
    obtain ⟨hsa, hsb, hfb, -⟩ := pow_built happly
    have ha : (binary .power a b).HasAttributes a.shape a.free := ⟨hs.trans hsa.symm, hf⟩
    exact ⟨.inr ha, .inl (isScalar_iff.mpr ⟨hsb, hfb⟩), .inl ha⟩

/-- The entry of an operand that is picked is its component. -/
theorem Componentwise.picked (ha : Componentwise a as) (h : Broadcasts a e) {c : List Nat}
    {σ : Env} (hc : InShape c e.shape) (hσ : e.free.InRange σ) :
    as[if as.size = 1 then 0 else e.placeAt c σ]? = a.component (c.take a.rank) σ := by
  rw [h.place ha.size hc hσ]
  exact ha.entry _ σ (h.inShape hc) (h.inRange hσ)

omit [Scalar R] in
theorem HasAttributes.size_eq (h : e.HasAttributes a.shape a.free) :
    shapeSize e.shape * e.free.size = shapeSize a.shape * a.free.size := by
  rw [h.1, h.2]

/-- An operand that is broadcast has one component, or as many as the result. -/
theorem Componentwise.size_broadcasts (ha : Componentwise a as) (h : Broadcasts a e) :
    as.size = 1 ∨ as.size = shapeSize e.shape * e.free.size := by
  rcases h with hs | he
  · exact .inl (ha.size.trans (size_scalar hs))
  · exact .inr (ha.size.trans he.size_eq.symm)

/-- Each operand has one entry or as many as the result, and one of them has as many. -/
theorem sizes_broadcast {op : BinaryOp} (hop : op ≠ .product)
    (happly : op.apply a b = .ok (binary op a b)) (ha : Componentwise a as)
    (hb : Componentwise b bs) {n : Nat}
    (hn : n = shapeSize (binary op a b).shape * (binary op a b).free.size) :
    (as.size = 1 ∨ as.size = n) ∧ (bs.size = 1 ∨ bs.size = n) ∧ (as.size = n ∨ bs.size = n) := by
  obtain ⟨hba, hbb, hsame⟩ := broadcasts hop happly
  subst hn
  refine ⟨ha.size_broadcasts hba, hb.size_broadcasts hbb, hsame.imp (fun h => ?_) fun h => ?_⟩
  · exact ha.size.trans h.size_eq.symm
  · exact hb.size.trans h.size_eq.symm

/-- What a combination lists, and that both lists are empty if one of them is. -/
theorem componentwise_zip [DecidableEq R] {op : BinaryOp} (hop : op ≠ .product)
    (happly : op.apply a b = .ok (binary op a b)) (ha : Componentwise a as)
    (hb : Componentwise b bs) (h : zipScalars op as bs = .ok rs) :
    Componentwise (binary op a b) rs ∧ (as.size = 0 ↔ bs.size = 0) := by
  obtain ⟨hba, hbb, -⟩ := broadcasts hop happly
  obtain ⟨hsa, hsb, hmax, hentry⟩ := zipScalars_ok h
  obtain ⟨ha', hb', hab⟩ := sizes_broadcast hop happly ha hb rfl
  -- the sizes agree, so each entry is read at its own place or is the only one
  have hsize : rs.size = shapeSize (binary op a b).shape * (binary op a b).free.size := by omega
  refine ⟨⟨hsize, fun c σ hc hσ => ?_⟩, by omega⟩
  obtain ⟨s, t, r, hs, ht, hr, hplace⟩ := hentry _ (hsize ▸ placeAt_lt hc hσ)
  rw [ha.picked hba hc hσ] at hs
  rw [hb.picked hbb hc hσ] at ht
  exact hplace.trans (binaryComponent_eq_some.mpr ⟨s, t, hs, ht, hr⟩).symm

/-- A combination is made if every component of it is built. -/
theorem exists_zipScalars [DecidableEq R] {op : BinaryOp} (hop : op ≠ .product)
    (hca : Canonical a) (hcb : Canonical b) (happly : op.apply a b = .ok (binary op a b))
    (ha : Componentwise a as) (hb : Componentwise b bs) (hfit : as.size = 0 ↔ bs.size = 0)
    (h : (binary op a b).Determined) : ∃ rs, zipScalars op as bs = .ok rs := by
  obtain ⟨hba, hbb, -⟩ := broadcasts hop happly
  obtain ⟨ha', hb', hab⟩ := sizes_broadcast hop happly ha hb rfl
  have hsize : max as.size bs.size =
      shapeSize (binary op a b).shape * (binary op a b).free.size := by omega
  have hsa : as.size = 1 ∨ as.size = max as.size bs.size := by omega
  have hsb : bs.size = 1 ∨ bs.size = max as.size bs.size := by omega
  have hsorted : (binary op a b).free.Sorted := (Canonical.binary hca hcb happly).sorted
  dsimp only [zipScalars]
  rw [if_pos hsa, if_pos hsb]
  refine exists_toArray fun k hk => ?_
  -- the entry stands for a component, which is built from components of the operands
  rw [List.mem_range, hsize] at hk
  obtain ⟨c, σ, hc, hσ, rfl⟩ := exists_placeAt hsorted hk
  obtain ⟨r, hr⟩ := h c σ hc hσ
  obtain ⟨s, t, hs, ht, hr⟩ := binaryComponent_eq_some.mp hr
  refine ⟨r, bind_eq_ok.mpr ⟨s, ?_, bind_eq_ok.mpr ⟨t, ?_, lift_eq_ok.mpr hr⟩⟩⟩
  · rw [scalarAt_eq_ok, ha.picked hba hc hσ, hs]
  · rw [scalarAt_eq_ok, hb.picked hbb hc hσ, ht]

end Lists

/-! ### Chains -/

section Chains

variable {e s : Expr R} {c : List Nat} {σ : Env}

/-- A chain whose free indices are fixed and whose axes are indexed is its scalar leaf. -/
theorem eq_leafAt_of_index (hz : e.isZero = false)
    (h : (e.mapIndices σ.fix).index (c.map .fixed) = .ok s) : s = e.leafAt c σ := by
  unfold leafAt
  -- without indices nothing is built
  obtain ⟨-, ⟨hnil, rfl⟩ | ⟨hne, -, hs⟩⟩ := index_built h
  · rw [if_pos (List.map_eq_nil_iff.mp hnil)]
  · rw [if_neg (by simpa using hne)]
    cases hs with
    | node => rfl
    | zero ha =>
      rw [show (e.mapIndices σ.fix).isZero = e.isZero by cases e <;> rfl, hz] at ha
      cases ha

variable [DecidableEq R]

/-- A chain can be fixed at positions in range. -/
theorem exists_fix_chain (hc : Canonical e) (hm : e.isModifiedTerminal) (hz : e.isZero = false)
    (hσ : e.free.InRange σ) :
    e.fix (e.free.map (·.id)) (e.free.positions σ) = .ok (e.mapIndices σ.fix) ∧
      (e.mapIndices σ.fix).shape = e.shape := by
  -- every free index gets its position, and none gets another name
  have hon : ∀ y ∈ e.free, (Renaming.ofPairs ((e.free.map (·.id)).zip
      ((e.free.positions σ).map Index.fixed))).onIndex (.free y.id) = .fixed (σ y.id) :=
    fun y hy => onIndex_positions (FreeIndices.has_of_mem hy)
  have hfit : (Renaming.ofPairs ((e.free.map (·.id)).zip
      ((e.free.positions σ).map Index.fixed))).Fits e.free := by
    -- positions lie in the dimensions they stand for
    refine ⟨fun y hy p hp => ?_, fun x hx y hy k hk => ?_⟩
    · rw [hon y hy] at hp
      cases hp
      exact hσ y hy
    · rw [hon x hx] at hk
      cases hk
  obtain ⟨hr, hcarried⟩ := exists_rename_chain hc hm hz hfit
  rw [mapIndices_positions hc hm] at hr hcarried
  refine ⟨?_, hcarried.shape⟩
  have hl : (e.free.map (·.id)).length = (e.free.positions σ).length := by
    rw [FreeIndices.positions, List.length_map, List.length_map]
  rw [fix, if_pos hl, substitute_eq_rename, hr]

omit [Scalar R] [DecidableEq R] in
/-- Positions within the axes pass the checks of an indexing. -/
theorem indicesOk_fixed {a : Expr R} (hc : InShape c a.shape) :
    IndicesOk a (c.map .fixed) a.shape where
  distinct := List.pairwise_map.mpr (List.pairwise_of_forall fun _ _ _ h => nomatch h)
  fresh i hi := by
    obtain ⟨p, -, hp⟩ := List.mem_map.mp hi
    cases hp
  bounded p d hmem := by
    rw [List.zip_map_left, List.mem_map] at hmem
    obtain ⟨⟨q, d'⟩, hmem, heq⟩ := hmem
    cases heq
    exact (List.forall₂_iff_zip.mp hc).2 hmem

/-- Fixed at positions in range, a chain can be indexed at every component. -/
theorem exists_index_chain (hc : Canonical e) (hm : e.isModifiedTerminal) (hz : e.isZero = false)
    (hcs : InShape c e.shape) (hσ : e.free.InRange σ) :
    ∃ s, (e.mapIndices σ.fix).index (c.map .fixed) = .ok s := by
  have hshape := (exists_fix_chain hc hm hz hσ).2
  have hlen : (c.map Index.fixed).length = (e.mapIndices σ.fix).rank := by
    rw [List.length_map, rank, hshape, hcs.length]
  have hok := indicesOk_fixed (hshape.symm ▸ hcs)
  exact exists_index hlen (hok.checkIndices hlen)

/-- What it gives is its leaf, which has a descriptor if all components are built. -/
theorem exists_entry_chain (hc : Canonical e) (hm : e.isModifiedTerminal) (hz : e.isZero = false)
    (hd : e.Determined) (hcs : InShape c e.shape) (hσ : e.free.InRange σ) :
    ∃ s m, (e.mapIndices σ.fix).index (c.map .fixed) = .ok s ∧ s.analyse = .ok (some m) := by
  obtain ⟨s, hs⟩ := exists_index_chain hc hm hz hcs hσ
  obtain ⟨s', hs'⟩ := hd c σ hcs hσ
  rw [component_chain hm, leafComponent_eq_some hz, ← eq_leafAt_of_index hz hs] at hs'
  obtain ⟨rfl, m, hanalyse⟩ := hs'
  exact ⟨s', m, hs, hanalyse⟩

/-- A chain can be fixed at all positions of its free indices. -/
theorem exists_fixed_chains (hc : Canonical e) (hm : e.isModifiedTerminal)
    (hz : e.isZero = false) : ∃ fixed, (WeakForm.components e.free.dims).mapM
      (fun p => (liftM (e.fix (e.free.map (·.id)) p) : Result R (Expr R))) = .ok fixed := by
  refine exists_mapM_of_forall fun p hp => ?_
  obtain ⟨σ, hσ, rfl⟩ := hc.sorted.exists_positions (mem_components.mp hp)
  exact ⟨_, lift_eq_ok.mpr (exists_fix_chain hc hm hz hσ).1⟩

/-- The chains that fixing gives. -/
theorem eq_of_mem_fixed_chains (hc : Canonical e) (hm : e.isModifiedTerminal)
    (hz : e.isZero = false) {fixed : List (Expr R)}
    (h : (WeakForm.components e.free.dims).mapM
      (fun p => (liftM (e.fix (e.free.map (·.id)) p) : Result R (Expr R))) = .ok fixed)
    {a : Expr R} (ha : a ∈ fixed) : ∃ σ : Env, e.free.InRange σ ∧ a = e.mapIndices σ.fix := by
  obtain ⟨p, hp, hfix⟩ := mem_of_mapM h ha
  obtain ⟨σ, hσ, rfl⟩ := hc.sorted.exists_positions (mem_components.mp hp)
  exact ⟨σ, hσ, fix_chain hc hm hz (lift_eq_ok.mp hfix)⟩

/-- The components of a chain are listed if all are built. -/
theorem exists_terminalScalars (hc : Canonical e) (hm : e.isModifiedTerminal)
    (hz : e.isZero = false) (hd : e.Determined) : ∃ as, terminalScalars e = .ok as := by
  unfold terminalScalars
  rw [hz, if_neg Bool.false_ne_true]
  refine exists_bind (exists_fixed_chains hc hm hz) fun fixed hfixed => ?_
  -- each of them is indexed at each component, and gives the scalar leaf
  refine exists_bind (exists_flatMapM_of_forall fun c hcs => exists_mapM_of_forall fun a ha => ?_)
    fun _ _ => ⟨_, rfl⟩
  obtain ⟨σ, hσ, rfl⟩ := eq_of_mem_fixed_chains hc hm hz hfixed ha
  obtain ⟨s, m, hs, hanalyse⟩ := exists_entry_chain hc hm hz hd (mem_components.mp hcs) hσ
  exact ⟨s, bind_eq_ok.mpr ⟨s, lift_eq_ok.mpr hs, bind_eq_ok.mpr ⟨some m, hanalyse, rfl⟩⟩⟩

/-- The list that a terminal is scalarized to has its components. -/
theorem lists_terminal (hc : Canonical e) (hm : e.isModifiedTerminal) :
    Lists (terminalScalars e) e := by
  cases hz : e.isZero with
  -- a zero is scalarized to zeros
  | true =>
    have heq : terminalScalars e =
        .ok (Array.replicate (shapeSize e.shape * e.free.size) (zero [])) := by
      unfold terminalScalars
      rw [if_pos hz]
      rfl
    refine ⟨fun as h => ?_, fun _ => ⟨_, heq⟩⟩
    cases heq.symm.trans h
    refine ⟨Array.size_replicate, fun c σ hcs hσ => ?_⟩
    rw [Array.getElem?_replicate, if_pos (placeAt_lt hcs hσ), component_zero hz]
  | false =>
    refine ⟨fun as h => ?_, exists_terminalScalars hc hm hz⟩
    -- other terminals to one scalar for each component
    obtain ⟨hsize, hentry⟩ := terminalScalars_ok hc hm hz h
    refine ⟨hsize, fun c σ hcs hσ => ?_⟩
    obtain ⟨s, m, hs, hindex, hanalyse⟩ := hentry c σ hcs hσ
    rw [component_chain hm, hs]
    exact ((leafComponent_eq_some hz).mpr ⟨eq_leafAt_of_index hz hindex, m, hanalyse⟩).symm

end Chains

/-! ## Expressions that are scalarized -/

section Scalarize

variable {a b e : Expr R} {as : Array (Expr R)}

/-- All axes and free indices have positions. -/
structure Positive (e : Expr R) : Prop where
  shape : ∀ d ∈ e.shape, 0 < d
  free : ∀ f ∈ e.free, 0 < f.dim

/-- An expression has no component if an axis or an index has no extent, and then only. -/
theorem Componentwise.positive_iff (h : Componentwise e as) : e.Positive ↔ as.size ≠ 0 := by
  rw [h.size, Nat.mul_ne_zero_iff, shapeSize_eq_prod, FreeIndices.size_eq_prod, ne_eq, ne_eq,
    List.prod_eq_zero_iff, List.prod_eq_zero_iff]
  constructor
  · rintro ⟨hshape, hfree⟩
    refine ⟨fun h0 => Nat.lt_irrefl 0 (hshape 0 h0), fun h0 => ?_⟩
    obtain ⟨f, hf, h0⟩ := List.mem_map.mp h0
    exact Nat.ne_of_gt (hfree f hf) h0
  · rintro ⟨hshape, hfree⟩
    refine ⟨fun d hd => Nat.pos_of_ne_zero ?_, fun f hf => Nat.pos_of_ne_zero fun h0 => ?_⟩
    · rintro rfl
      exact hshape hd
    · exact hfree (List.mem_map.mpr ⟨f, hf, h0⟩)

/-- Chains with descriptors, and operators that build every component from components of
their operands. Where components are combined in order, both operands have some or neither
has. -/
inductive Scalarizable : Expr R → Prop
  | terminal {e : Expr R} (hm : e.isModifiedTerminal) (h : e.Determined) : Scalarizable e
  | unary {op : UnaryOp} {a : Expr R} (hop : op.ByComponents)
      (hm : (unary op a).isModifiedTerminal = false) (ha : Scalarizable a)
      (h : (unary op a).Determined) : Scalarizable (unary op a)
  | binary {op : BinaryOp} {a b : Expr R} (ha : Scalarizable a) (hb : Scalarizable b)
      (hfit : op ≠ .product → (a.Positive ↔ b.Positive)) (h : (binary op a b).Determined) :
      Scalarizable (binary op a b)

/-- What can be scalarized has all its components. -/
theorem Scalarizable.determined (h : Scalarizable e) : e.Determined := by
  cases h with
  | terminal _ h => exact h
  | unary _ _ _ h => exact h
  | binary _ _ _ h => exact h

variable [DecidableEq R]

/-- The components of an operator's node, out of those of its operand. -/
def unaryScalars (op : UnaryOp) (a : Expr R) (as : Array (Expr R)) : Result R (Array (Expr R)) :=
  match op with
  | .math f => eachScalar (.math f) as
  | .abs => eachScalar .abs as
  | .indexSum i => sumScalars i a as
  | .indexed is => indexedScalars is a as
  | op => .error (.unexpectedNode (unary op a))

/-- The components of a node of algebra, out of those of its operands. -/
def binaryScalars (op : BinaryOp) (a b : Expr R) (as bs : Array (Expr R)) :
    Result R (Array (Expr R)) :=
  match op with
  | .product => productScalars a b as bs
  | op => zipScalars op as bs

theorem scalarize_terminal (hm : e.isModifiedTerminal) : scalarize e = terminalScalars e := by
  rw [scalarize.eq_def, if_pos hm]

/-- Other operators over something that is no chain are rejected. -/
theorem scalarize_rejected {op : UnaryOp} (hop : ¬op.ByComponents)
    (hm : (unary op a).isModifiedTerminal = false) :
    scalarize (unary op a) = .error (.unexpectedNode (unary op a)) := by
  rw [scalarize.eq_def, hm, if_neg Bool.false_ne_true]
  cases op with
  | math | abs | indexSum | indexed => exact absurd trivial hop
  | componentTensor | restricted | grad | referenceGrad | spatialDerivative | averaged
    | labelled => rfl

theorem scalarize_listTensor {items : List (Expr R)} :
    scalarize (listTensor items) = .error (.unexpectedNode (listTensor items)) := by
  rw [scalarize.eq_def, isModifiedTerminal, if_neg Bool.false_ne_true]

/-- An operator by components is applied to the scalars of its operand. -/
theorem scalarize_unary {op : UnaryOp} (hop : op.ByComponents)
    (hm : (unary op a).isModifiedTerminal = false) :
    scalarize (unary op a) = scalarize a >>= unaryScalars op a := by
  rw [scalarize.eq_def, hm, if_neg Bool.false_ne_true]
  cases op with
  | math | abs | indexSum | indexed => rfl
  | componentTensor | restricted | grad | referenceGrad | spatialDerivative | averaged
    | labelled => cases hop

omit [DecidableEq R] in
theorem binaryScalars_of_ne {op : BinaryOp} (hop : op ≠ .product) {as bs : Array (Expr R)} :
    binaryScalars op a b as bs = zipScalars op as bs := by
  cases op <;> first | rfl | exact absurd rfl hop

/-- Two operands are scalarized one after the other. -/
theorem scalarize_binary (op : BinaryOp) : scalarize (binary op a b) =
    scalarize a >>= fun as => scalarize b >>= binaryScalars op a b as := by
  rw [scalarize.eq_def, isModifiedTerminal, if_neg Bool.false_ne_true]
  cases op <;> rfl

/-- The list for a node over one operand has its components. -/
theorem lists_unary {op : UnaryOp} (hop : op.ByComponents) (hca : Canonical a)
    (happly : op.apply a = .ok (unary op a)) (ha : Componentwise a as) :
    Lists (unaryScalars op a as) (unary op a) := by
  have hsorted : (unary op a).free.Sorted := (Canonical.unary hca happly).sorted
  cases op with
  | math f =>
    have hshape : a.shape = [] := (math_built happly).1
    exact lists_each ha hsorted ((shape_unary _ a).trans hshape.symm) (free_unary _ a)
      fun c σ hc => component_unary happly trivial hc
  | abs =>
    exact lists_each ha hsorted (shape_unary _ a) (free_unary _ a)
      fun c σ hc => component_unary happly trivial hc
  | indexSum i => exact lists_indexSum ha hca happly
  | indexed is => exact lists_indexed ha hca happly
  | componentTensor | restricted | grad | referenceGrad | spatialDerivative | averaged
    | labelled => cases hop

/-- **What scalarization returns are the components.** -/
theorem componentwise_scalarize (hc : Canonical e) (h : scalarize e = .ok as) :
    Componentwise e as ∧ Scalarizable e := by
  -- a chain is a terminal for this purpose
  have hterminal : ∀ {e : Expr R} {as : Array (Expr R)}, Canonical e → e.isModifiedTerminal →
      scalarize e = .ok as → Componentwise e as ∧ Scalarizable e := fun {e as} hc hm h => by
    rw [scalarize_terminal hm] at h
    have hlist := (lists_terminal hc hm).sound as h
    exact ⟨hlist, .terminal hm hlist.determined⟩
  induction hc generalizing as with
  | leaf ht => exact hterminal (.leaf ht) rfl h
  | listTensor =>
    rw [scalarize_listTensor] at h
    cases h
  | @unary op a hca happly ih =>
    cases hm : (unary op a).isModifiedTerminal with
    | true => exact hterminal (.unary hca happly) hm h
    | false =>
      by_cases hop : op.ByComponents
      · rw [scalarize_unary hop hm] at h
        -- the operand was scalarized before
        obtain ⟨as', ha, h⟩ := bind_eq_ok.mp h
        obtain ⟨hlist, hsc⟩ := ih ha
        have hlist := (lists_unary hop hca happly hlist).sound _ h
        exact ⟨hlist, .unary hop hm hsc hlist.determined⟩
      · rw [scalarize_rejected hop hm] at h
        cases h
  | @binary op a b hca hcb happly iha ihb =>
    rw [scalarize_binary] at h
    obtain ⟨as', ha, h⟩ := bind_eq_ok.mp h
    obtain ⟨bs', hb, h⟩ := bind_eq_ok.mp h
    obtain ⟨hlista, hsca⟩ := iha ha
    obtain ⟨hlistb, hscb⟩ := ihb hb
    -- only a product has components for every pair
    by_cases hop : op = .product
    · subst hop
      have hlist := (lists_product hlista hlistb hca hcb happly).sound _ h
      exact ⟨hlist, .binary hsca hscb (fun h => absurd rfl h) hlist.determined⟩
    · rw [binaryScalars_of_ne hop] at h
      obtain ⟨hlist, hfit⟩ := componentwise_zip hop happly hlista hlistb h
      refine ⟨hlist, .binary hsca hscb (fun _ => ?_) hlist.determined⟩
      rw [hlista.positive_iff, hlistb.positive_iff, ne_eq, ne_eq, hfit]

/-- **Where all components are built, scalarization returns them.** -/
theorem Scalarizable.scalarize (h : Scalarizable e) (hc : Canonical e) :
    ∃ as, scalarize e = .ok as ∧ Componentwise e as := by
  -- what is returned is a list of components, so it is enough that something is
  suffices hs : ∃ as, Expr.scalarize e = .ok as from
    hs.imp fun as has => ⟨has, (componentwise_scalarize hc has).1⟩
  induction h with
  | @terminal e hm h =>
    rw [scalarize_terminal hm]
    exact (lists_terminal hc hm).complete h
  | @unary op a hop hm _ h ih =>
    cases hc with
    | unary hca happly =>
    -- the operand can be scalarized, and its list is read entry by entry
    obtain ⟨as, has⟩ := ih hca
    have hlist := (componentwise_scalarize hca has).1
    rw [scalarize_unary hop hm]
    obtain ⟨rs, hrs⟩ := (lists_unary hop hca happly hlist).complete h
    exact ⟨rs, bind_eq_ok.mpr ⟨as, has, hrs⟩⟩
  | @binary op a b _ _ hfit h iha ihb =>
    cases hc with
    | binary hca hcb happly =>
    obtain ⟨as, has⟩ := iha hca
    obtain ⟨bs, hbs⟩ := ihb hcb
    have hlista := (componentwise_scalarize hca has).1
    have hlistb := (componentwise_scalarize hcb hbs).1
    have hrs : ∃ rs, binaryScalars op a b as bs = .ok rs := by
      by_cases hop : op = .product
      · subst hop
        exact (lists_product hlista hlistb hca hcb happly).complete h
      · have hfit := hfit hop
        rw [hlista.positive_iff, hlistb.positive_iff, not_iff_not] at hfit
        rw [binaryScalars_of_ne hop]
        exact exists_zipScalars hop hca hcb happly hlista hlistb hfit h
    obtain ⟨rs, hrs⟩ := hrs
    rw [scalarize_binary]
    exact ⟨rs, bind_eq_ok.mpr ⟨as, has, bind_eq_ok.mpr ⟨bs, hbs, hrs⟩⟩⟩

end Scalarize

end Expr

end WeakForm
