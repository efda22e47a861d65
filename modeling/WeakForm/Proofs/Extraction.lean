import WeakForm.Proofs.MonomialSums

/-!
# Extraction of monomials

Extraction drops the index sums of an integrand: what is summed over is told by which indices
are free. This keeps the values of an integrand where the summations are kept apart. An index
that is summed over must not occur in another factor or be put in from outside, a base in
which something is summed over must not be multiplied with itself, and no free index may get
lost in a power without factors. A product with a tensor is one with a number, since an
indexing sets the components of all factors that have no slots.

* `Expr.summed`, `Expr.opened` — the indices summed over, and the open slots;
* `Expr.SumsApart` — summations that are kept apart;
* `Expr.Extracted`, `extracted_of_mem` — how one monomial comes about;
* `extract_denotes` — the monomials denote the values of the integrand.
-/

namespace WeakForm

namespace Expr

variable {R : Type}

/-! ## Summations that are kept apart -/

/-- The indices that an integrand sums over. -/
def summed : Expr R → List IndexId
  | leaf _ => []
  | unary (.indexSum i) a => i :: a.summed
  | unary _ a => a.summed
  | binary _ a b => a.summed ++ b.summed
  | listTensor _ => []

/-- The slots that are open in the monomials of an integrand. -/
def opened : Expr R → List IndexId
  | leaf _ => []
  | unary (.componentTensor ids) _ => ids
  | unary (.indexed _) _ => []
  | unary _ a => a.opened
  | binary .sum a b => a.opened ++ b.opened
  | binary _ _ _ => []
  | listTensor _ => []

/-- Made of literals. -/
def isNumeric : Expr R → Bool
  | leaf (.literal _) | leaf (.zero _ _) => true
  | leaf _ => false
  | unary _ a => a.isNumeric
  | binary _ a b => a.isNumeric && b.isNumeric
  | listTensor _ => false

def scope (e : Expr R) : Scope where
  shape := e.shape
  free := e.free
  summed := e.summed
  opened := e.opened

/-- No index that is summed over in one factor occurs in the other, and both are scalar unless
one is a number and the other has no open slots. -/
structure FactorsApart (a b : Expr R) : Prop where
  left : ∀ i ∈ a.summed, b.free.has i = false ∧ i ∉ b.summed
  right : ∀ i ∈ b.summed, a.free.has i = false
  scalar : (a.shape = [] ∧ b.shape = []) ∨ (a.isNumeric ∧ b.opened = []) ∨
    (b.isNumeric ∧ a.opened = [])

/-- A power without factors has no free indices, and a base that is multiplied with itself
sums over nothing. -/
structure PowerApart (a b : Expr R) : Prop where
  zero : b.exponent = .ok 0 → a.free = []
  many : ∀ n, b.exponent = .ok n → 2 ≤ n → a.summed = []

/-- The summations of an integrand are kept apart. -/
def SumsApart : Expr R → Prop
  | leaf _ => True
  | unary (.indexed is) a => SumsApart a ∧ ∀ i, .free i ∈ is → i ∉ a.summed
  | unary (.spatialDerivative is) a =>
    SumsApart a ∧ ∀ i, .free i ∈ is → i ∉ a.summed ∧ i ∉ a.opened
  | unary _ a => SumsApart a
  | binary .product a b => SumsApart a ∧ SumsApart b ∧ FactorsApart a b
  | binary .power a b => SumsApart a ∧ PowerApart a b
  | binary _ a b => SumsApart a ∧ SumsApart b
  | listTensor _ => True

/-! ## One monomial at a time -/

section Extract

variable [Scalar R] {a b e : Expr R} {ms : MonomialSum R}

/-- How one monomial of an integrand comes about: from one monomial of each operand, and for a
power from as many monomials of the base as the exponent says. -/
inductive Extracted : Expr R → Monomial R → Prop
  | argument (t : Argument) : Extracted (argument t) (.ofFactor { function := argument t })
  | coefficient (t : Coefficient) :
      Extracted (coefficient t) (.ofFactor { function := coefficient t })
  | literal (v : Literal R) : Extracted (leaf (.literal v)) { coefficient := v.value }
  | left {a b : Expr R} {m : Monomial R} (ha : Extracted a m) : Extracted (binary .sum a b) m
  | right {a b : Expr R} {n : Monomial R} (hb : Extracted b n) : Extracted (binary .sum a b) n
  | product {a b : Expr R} {m n : Monomial R} (ha : Extracted a m) (hb : Extracted b n) :
      Extracted (binary .product a b) (m.mul n)
  | one {a b : Expr R} : Extracted (binary .power a b) { coefficient := Scalar.one }
  | times {a b : Expr R} {m n : Monomial R} (hm : Extracted (binary .power a b) m)
      (ha : Extracted a n) : Extracted (binary .power a b) (m.mul n)
  | indexSum {i : IndexId} {a : Expr R} {m : Monomial R} (ha : Extracted a m) :
      Extracted (unary (.indexSum i) a) m
  | labelled {number : Nat} {a : Expr R} {m : Monomial R} (ha : Extracted a m) :
      Extracted (unary (.labelled number) a) m
  | indexed {is : List Index} {a : Expr R} {m m' : Monomial R} (ha : Extracted a m)
      (h : m.index is = .ok m') : Extracted (unary (.indexed is) a) m'
  | componentTensor {ids : List IndexId} {a : Expr R} {m m' : Monomial R} (ha : Extracted a m)
      (h : m.openSlots ids = .ok m') : Extracted (unary (.componentTensor ids) a) m'
  | spatialDerivative {is : List Index} {a : Expr R} {m m' : Monomial R} (ha : Extracted a m)
      (h : m.derivative is = .ok m') : Extracted (unary (.spatialDerivative is) a) m'
  | restricted {side : Side} {a : Expr R} {m m' : Monomial R} (ha : Extracted a m)
      (h : m.restrict side = .ok m') : Extracted (unary (.restricted side) a) m'

/-- Every monomial of a power comes about factor by factor. -/
theorem extracted_of_mem_pow (has : ∀ n ∈ ms, Extracted a n) (k : Nat) {m : Monomial R}
    (hm : m ∈ ms.pow k) : Extracted (binary .power a b) m := by
  induction k generalizing m with
  | zero =>
    obtain rfl := List.mem_singleton.mp hm
    exact .one
  | succ k ih =>
    obtain ⟨m₁, hm₁, hm⟩ := List.mem_flatMap.mp hm
    obtain ⟨n, hn, rfl⟩ := List.mem_map.mp hm
    exact .times (ih hm₁) (has n hn)

omit [Scalar R] in
/-- A monomial that comes from one of those of the operand. -/
theorem mem_of_extract_mapM {f : Monomial R → Result R (Monomial R)} {x : Result R (MonomialSum R)}
    (h : (x >>= fun as => as.mapM f) = .ok ms) {m : Monomial R} (hm : m ∈ ms) :
    ∃ as, x = .ok as ∧ ∃ n ∈ as, f n = .ok m := by
  obtain ⟨as, has, h⟩ := bind_eq_ok.mp h
  exact ⟨as, has, mem_of_mapM h hm⟩

/-- **Every monomial that is extracted comes about in this way.** -/
theorem extracted_of_mem (h : e.extract = .ok ms) {m : Monomial R} (hm : m ∈ ms) :
    Extracted e m := by
  induction e generalizing ms m with
  | leaf t =>
    cases t with
    | argument t =>
      cases h
      obtain rfl := List.mem_singleton.mp hm
      exact .argument t
    | coefficient t =>
      cases h
      obtain rfl := List.mem_singleton.mp hm
      exact .coefficient t
    | literal v =>
      cases h
      obtain rfl := List.mem_singleton.mp hm
      exact .literal v
    | zero shape free =>
      cases h
      cases hm
    | geometry g => cases h
  | unary op a ih =>
    -- an operator over one operand gives one monomial for each of the operand's
    cases op with
    | indexSum i => exact .indexSum (ih h hm)
    | labelled number => exact .labelled (ih h hm)
    | indexed is =>
      obtain ⟨as, has, n, hn, hr⟩ := mem_of_extract_mapM h hm
      exact .indexed (ih has hn) hr
    | componentTensor ids =>
      obtain ⟨as, has, n, hn, hr⟩ := mem_of_extract_mapM h hm
      exact .componentTensor (ih has hn) hr
    | spatialDerivative is =>
      obtain ⟨as, has, n, hn, hr⟩ := mem_of_extract_mapM h hm
      exact .spatialDerivative (ih has hn) hr
    | restricted side =>
      obtain ⟨as, has, n, hn, hr⟩ := mem_of_extract_mapM h hm
      exact .restricted (ih has hn) hr
    | math | abs | grad | referenceGrad | averaged => cases h
  | binary op a b iha ihb =>
    -- a sum has the monomials of both operands, and a product those of all pairs
    cases op with
    | sum =>
      obtain ⟨as, has, h⟩ := bind_eq_ok.mp h
      obtain ⟨bs, hbs, h⟩ := bind_eq_ok.mp h
      cases h
      rcases List.mem_append.mp hm with hm | hm
      · exact .left (iha has hm)
      · exact .right (ihb hbs hm)
    | product =>
      obtain ⟨as, has, h⟩ := bind_eq_ok.mp h
      obtain ⟨bs, hbs, h⟩ := bind_eq_ok.mp h
      cases h
      obtain ⟨m₁, hm₁, hm⟩ := List.mem_flatMap.mp hm
      obtain ⟨n, hn, rfl⟩ := List.mem_map.mp hm
      exact .product (iha has hm₁) (ihb hbs hn)
    | power =>
      obtain ⟨k, -, h⟩ := bind_eq_ok.mp h
      obtain ⟨as, has, h⟩ := bind_eq_ok.mp h
      cases h
      exact extracted_of_mem_pow (fun n hn => iha has hn) k hm
    | division => cases h
  | listTensor items => cases h

/-! ## Numbers -/

/-- The monomials of a number have no factors. -/
theorem Extracted.factorless {m : Monomial R} (h : Extracted e m) (hnum : e.isNumeric) :
    m.factors = [] := by
  -- monomial by monomial, with the expression it was read from
  induction h with
  | argument | coefficient => cases hnum
  | literal | one => rfl
  | left _ ih => exact ih (Bool.and_eq_true_iff.mp hnum).1
  | right _ ih => exact ih (Bool.and_eq_true_iff.mp hnum).2
  | @product a b m n _ _ iha ihb =>
    obtain ⟨ha, hb⟩ := Bool.and_eq_true_iff.mp hnum
    show m.factors ++ n.factors = []
    rw [iha ha, ihb hb, List.append_nil]
  | @times a b m n _ _ ihm iha =>
    show m.factors ++ n.factors = []
    rw [ihm hnum, iha (Bool.and_eq_true_iff.mp hnum).1, List.append_nil]
  | indexSum _ ih => exact ih hnum
  | labelled _ ih => exact ih hnum
  | @indexed is a m m' _ h ih =>
    rcases Monomial.index_ok h with ⟨-, rfl⟩ | ⟨ids, -, -, rfl⟩
    · show m.factors.map _ = []
      rw [ih hnum, List.map_nil]
    · show m.factors.map _ = []
      rw [ih hnum, List.map_nil]
  | componentTensor _ h ih =>
    obtain ⟨-, rfl⟩ := Monomial.openSlots_ok h
    exact ih hnum
  | spatialDerivative _ h ih =>
    -- a number has no factor to derive
    obtain ⟨f, hf, -⟩ := Monomial.derivative_ok h
    rw [ih hnum] at hf
    cases hf
  | @restricted side a m m' _ h ih =>
    obtain ⟨-, rfl⟩ := Monomial.restrict_ok h
    show m.factors.map _ = []
    rw [ih hnum, List.map_nil]

/-- An exponent is a whole number. -/
theorem exponent_ok {A : Type} [CommRing A] {M : Model R A} (hM : M.Exact) {n : Nat}
    (h : b.exponent = .ok n) :
    b.summed = [] ∧ ∀ c σ, b.value M c σ = (n : A) := by
  unfold exponent at h
  split at h
  · -- zero
    cases h
    refine ⟨rfl, fun c σ => ?_⟩
    rw [value_zero, Nat.cast_zero]
  · -- an integer
    next k =>
    by_cases hk : 0 ≤ k
    · rw [if_pos hk] at h
      cases h
      refine ⟨rfl, fun c σ => ?_⟩
      rw [value_leaf_literal, hM.literal_int]
      obtain ⟨j, rfl⟩ := Int.eq_ofNat_of_zero_le hk
      rw [Int.toNat_natCast, Int.cast_natCast]
    · rw [if_neg hk] at h
      cases h
  · cases h

end Extract

/-! ## The monomials of an integrand -/

section Denotes

open MonomialSum

variable {A : Type} [Scalar R] [CommRing A] {M : Model R A} {Δ : M.Differential} {gdim : Nat}
  {a b e : Expr R} {ms ms' : MonomialSum R}

/-- A function is a monomial of its own. -/
theorem denotes_function (hM : M.Exact) {t : Terminal R} (hfree : t.free = [])
    (hspace : (leaf t : Expr R).signature.gdim = gdim) :
    Denotes Δ gdim [Monomial.ofFactor { function := leaf t }] (leaf t).scope
      ((leaf t).value M) := by
  have hplaces : (Monomial.ofFactor { function := leaf t } : Monomial R).places = [] := by
    simp [Monomial.places, Monomial.ofFactor, Factor.places, Signature.indexedFree,
      Signature.directionFree]
  refine ⟨fun m hm => ?_, fun c σ hc => ?_⟩
  · -- the monomial has no indices, and its function the axes of the expression
    obtain rfl := List.mem_singleton.mp hm
    refine ⟨fun f hf => ?_, ?_, fun x hx => ?_, fun x hx => ?_, fun _ _ => ?_, fun ids hids => ?_⟩
    · obtain rfl := List.mem_singleton.mp hf
      exact ⟨⟨t, rfl⟩, hspace, .inl rfl⟩
    · rw [Monomial.Consistent, hplaces]
      exact fun x hx => absurd hx List.not_mem_nil
    · have hnil : (leaf t : Expr R).free = [] := (free_leaf t).trans hfree
      rw [scope, hnil] at hx
      cases hx
    · rw [hplaces] at hx
      cases hx
    · exact ⟨_, rfl, rfl, rfl⟩
    · cases hids
  · -- nothing is summed over, and the coefficient is one
    have hterm : Monomial.value Δ (Monomial.ofFactor { function := leaf t })
        (leaf t).scope.free c σ = M.number Scalar.one * (leaf t).value M c σ := by
      rw [Monomial.value, Monomial.hidden, hplaces]
      show M.number Scalar.one * ([(leaf t).value M c (σ.bind [] c)].prod) = _
      rw [List.prod_singleton, Env.bind_nil]
    have hsum : MonomialSum.value Δ [Monomial.ofFactor { function := leaf t }]
        (leaf t).scope.free c σ = M.number Scalar.one * (leaf t).value M c σ := by
      rw [← hterm]
      exact List.sum_singleton
    rw [hsum, hM.one, one_mul]

/-- Monomials of factors that are kept apart are multiplied component by component. -/
theorem FactorsApart.multiplies (h : FactorsApart a b) {as bs : MonomialSum R}
    (has : a.extract = .ok as) (hbs : b.extract = .ok bs)
    (ha : ∀ m ∈ as, m.Within gdim a.scope) (hb : ∀ n ∈ bs, n.Within gdim b.scope) :
    ∀ m ∈ as, ∀ n ∈ bs, m.Multiplies n a.scope b.scope := by
  intro m hm n hn
  rcases h.scalar with ⟨hsa, hsb⟩ | ⟨hnum, hopened⟩ | ⟨hnum, hopened⟩
  · -- without axes there are no slots
    exact ⟨(ha m hm).slots_eq_none hsa, (hb n hn).slots_eq_none hsb, .inl ⟨hsa, hsb⟩⟩
  · -- a number has no factors
    have hfactors := (extracted_of_mem has hm).factorless hnum
    exact ⟨(ha m hm).slots_of_number hfactors, (hb n hn).slots_of_unopened hopened,
      .inr (.inl hfactors)⟩
  · have hfactors := (extracted_of_mem hbs hn).factorless hnum
    exact ⟨(ha m hm).slots_of_unopened hopened, (hb n hn).slots_of_number hfactors,
      .inr (.inr hfactors)⟩

/-- The scope of a product of factors that are kept apart. -/
theorem FactorsApart.scope (h : FactorsApart a b) (ha : a.free.Sorted) (hb : b.free.Sorted)
    (hr : BinaryOp.apply .product a b = .ok (binary .product a b)) :
    a.scope.Multiplies b.scope (binary .product a b).scope := by
  obtain ⟨hscalar, hconflict, -⟩ := mul_built hr
  refine ⟨?_, fun x => mem_free_binary ha hb hr,
    FreeIndices.compatible_of_conflict? ha hb hconflict, fun i hi => List.mem_append.mpr hi,
    h.left, h.right⟩
  show (a.shape = [] ∧ (binary .product a b).shape = b.shape) ∨
    (b.shape = [] ∧ (binary .product a b).shape = a.shape)
  rw [(attributes_mul hr).1]
  by_cases hs : a.shape = []
  · exact .inl ⟨hs, if_pos hs⟩
  · exact .inr ⟨hscalar.resolve_left hs, if_neg hs⟩

/-! ### Operators over one operand -/

/-- Summing over an index is part of the monomials' meaning. -/
theorem denotes_indexSum {i : IndexId} (ha : Canonical a)
    (happly : UnaryOp.apply (.indexSum i) a = .ok (unary (.indexSum i) a))
    (hms : Denotes Δ gdim ms a.scope (a.value M)) :
    Denotes Δ gdim ms (unary (.indexSum i) a).scope ((unary (.indexSum i) a).value M) := by
  -- summation takes the index from the free ones and adds it to the summed ones
  obtain ⟨d, hd⟩ := FreeIndices.has_iff.mp (sumOver_built happly).1
  have hscope : (unary (.indexSum i) a).scope =
      ⟨a.shape, (unary (.indexSum i) a).free, i :: a.summed, a.opened⟩ := by
    rw [scope, shape_unary]
    rfl
  have hvalue : (unary (.indexSum i) a).value M = fun c σ =>
      ∑ j ∈ Finset.range d, a.value M c (σ.bind [i] [j]) := by
    funext c σ
    rw [value_unary_indexSum, ha.sorted.dim?_eq_some.mpr hd, Option.getD_some]
  rw [hscope, hvalue]
  refine hms.sumOver hd fun x => ?_
  rw [mem_free_unary happly]
  simp [UnaryOp.bound, UnaryOp.introduced, scope]

/-- The indices of an indexing fit the operand if none of them is summed over inside. -/
theorem indexes_of_apply {is : List Index}
    (happly : UnaryOp.apply (.indexed is) a = .ok (unary (.indexed is) a))
    (hsummed : ∀ i, .free i ∈ is → i ∉ a.summed) : Monomial.Indexes is a.scope := by
  obtain ⟨hl, hok⟩ := index_ok happly
  exact ⟨hl, (indexed_node happly).1, hok.distinct, hok.fresh, hsummed⟩

/-- Indexing the monomials of an expression indexes the expression. -/
theorem denotes_indexed {is : List Index}
    (happly : UnaryOp.apply (.indexed is) a = .ok (unary (.indexed is) a))
    (hsummed : ∀ i, .free i ∈ is → i ∉ a.summed) (hms : Denotes Δ gdim ms a.scope (a.value M))
    (hr : ms.mapM (·.index is) = .ok ms') :
    Denotes Δ gdim ms' (unary (.indexed is) a).scope ((unary (.indexed is) a).value M) := by
  have his := indexes_of_apply happly hsummed
  have hmem : ∀ x, x ∈ (unary (.indexed is) a).free ↔
      x ∈ a.scope.free ∨ (Index.free x.id, x.dim) ∈ is.zip a.scope.shape := by
    intro x
    rw [mem_free_unary happly, ← Signature.mem_indexedFree]
    simp [UnaryOp.bound, UnaryOp.introduced, scope, shape]
  have hscope : (unary (.indexed is) a).scope =
      ⟨[], (unary (.indexed is) a).free, a.summed, []⟩ := by
    rw [scope, shape_unary]
    rfl
  rw [hscope]
  refine hms.mapM (fun _ σ => is.map σ.resolve) (fun _ σ => σ) (fun _ _ => .id A) hr
    (fun _ σ _ => ?_) fun m m' hm hr => ⟨hm.index his hr hmem, fun c σ hc => ?_⟩
  · rw [List.length_map]
    exact his.length
  · -- what is indexed has no axes left
    rw [List.eq_nil_of_length_eq_zero hc]
    exact Monomial.value_index hm his hr hmem Δ σ

/-- The indices that a component tensor binds are free in its operand. -/
theorem binds_of_apply {ids : List IndexId} (ha : Canonical a)
    (happly : UnaryOp.apply (.componentTensor ids) a = .ok (unary (.componentTensor ids) a)) :
    a.shape = [] ∧
      Monomial.Binds ids (unary (.componentTensor ids) a).shape a.scope := by
  obtain ⟨hne, hscalar, haxes, -⟩ := tensor_node happly
  obtain ⟨hnodup, hhas⟩ := tensorAxes_nodup haxes
  have hshape : (unary (.componentTensor ids) a).shape =
      ids.map fun i => (a.free.dim? i).getD 0 := shape_unary _ a
  refine ⟨hscalar, hne, by rw [hshape, List.length_map], hnodup, fun i d hmem => ?_⟩
  rw [hshape] at hmem
  exact ha.sorted.mem_of_zip hhas hmem

/-- Opening the slots of the monomials opens those of the expression. -/
theorem denotes_componentTensor {ids : List IndexId} (ha : Canonical a)
    (happly : UnaryOp.apply (.componentTensor ids) a = .ok (unary (.componentTensor ids) a))
    (hms : Denotes Δ gdim ms a.scope (a.value M)) (hr : ms.mapM (·.openSlots ids) = .ok ms') :
    Denotes Δ gdim ms' (unary (.componentTensor ids) a).scope
      ((unary (.componentTensor ids) a).value M) := by
  obtain ⟨hscalar, hids⟩ := binds_of_apply ha happly
  -- the indices become axes
  have hmem : ∀ x, x ∈ (unary (.componentTensor ids) a).free ↔
      x ∈ a.scope.free ∧ x.id ∉ ids := by
    intro x
    rw [mem_free_unary happly]
    simp [UnaryOp.bound, UnaryOp.introduced, scope]
  refine hms.mapM (fun _ _ => []) (fun c σ => σ.bind ids c) (fun _ _ => .id A) hr
    (fun _ _ _ => ?_) fun m m' hm hr =>
      ⟨hm.openSlots hids hr hmem, fun c σ _ => Monomial.value_openSlots hm hids hr hmem Δ c σ⟩
  show 0 = a.shape.length
  rw [hscalar]
  rfl

/-- Deriving a monomial derives the expression. -/
theorem denotes_derivative {is : List Index} (hspace : InSpace gdim a)
    (happly : UnaryOp.apply (.spatialDerivative is) a = .ok (unary (.spatialDerivative is) a))
    (hapart : ∀ i, .free i ∈ is → i ∉ a.summed ∧ i ∉ a.opened)
    (hms : Denotes Δ gdim ms a.scope (a.value M)) (hr : ms.mapM (·.derivative is) = .ok ms') :
    Denotes Δ gdim ms' (unary (.spatialDerivative is) a).scope
      ((unary (.spatialDerivative is) a).value M) := by
  -- a derivative that is not folded away has a domain, and directions within it
  obtain ⟨-, d, hd, hdirections, -⟩ := derivative_node happly
  have his : Monomial.Directs is a.scope :=
    ⟨checkDirections_ok hdirections, fun i hi => (hapart i hi).1, fun i hi => (hapart i hi).2⟩
  -- free indices among the directions run over the space
  have hmem : ∀ x, x ∈ (unary (.spatialDerivative is) a).free ↔
      x ∈ a.scope.free ∨ (Index.free x.id ∈ is ∧ x.dim = gdim) := by
    intro x
    rw [mem_free_unary happly, ← hspace.gdim_eq hd, ← signature_gdim hd,
      ← Signature.mem_directionFree]
    simp [UnaryOp.bound, UnaryOp.introduced, scope]
  have hscope : (unary (.spatialDerivative is) a).scope =
      ⟨a.shape, (unary (.spatialDerivative is) a).free, a.summed, a.opened⟩ := by
    rw [scope, shape_unary]
    rfl
  have hvalue : (unary (.spatialDerivative is) a).value M = fun c σ =>
      Δ.derive (is.map σ.resolve) (a.value M c σ) := by
    funext c σ
    exact value_unary_derivative Δ is a c σ
  rw [hscope, hvalue]
  exact hms.mapM (fun c _ => c) (fun _ σ => σ) (fun _ σ => Δ.derive (is.map σ.resolve)) hr
    (fun _ _ hc => hc) fun m m' hm hr =>
      ⟨hm.derivative his hr hmem, fun c σ _ => Monomial.value_derivative hm his hr hmem Δ c σ⟩

/-- Restricting the factors restricts the expression. -/
theorem denotes_restricted {side : Side} (hms : Denotes Δ gdim ms a.scope (a.value M))
    (hr : ms.mapM (·.restrict side) = .ok ms') :
    Denotes Δ gdim ms' (unary (.restricted side) a).scope
      ((unary (.restricted side) a).value M) := by
  -- a restriction changes nothing but the value
  have hscope : (unary (.restricted side) a).scope = a.scope := by
    rw [scope, shape_unary, free_unary]
    rfl
  have hvalue : (unary (.restricted side) a).value M = fun c σ =>
      (Δ.side side).toAddMonoidHom (a.value M c σ) := by
    funext c σ
    exact value_unary_restricted Δ side a c σ
  rw [hscope, hvalue]
  exact hms.mapM (fun c _ => c) (fun _ σ => σ) (fun _ _ => (Δ.side side).toAddMonoidHom) hr
    (fun _ _ hc => hc) fun m m' hm hr =>
      ⟨hm.restrict hr, fun c σ _ => Monomial.value_restrict hr _ Δ c σ⟩

/-- What an operator on one operand does to the monomials, it does to the value. -/
theorem extract_denotes_unary {op : UnaryOp} (ha : Canonical a) (hspace : InSpace gdim a)
    (hop : op.isPolynomial) (happly : op.apply a = .ok (unary op a))
    (hapart : SumsApart (unary op a))
    (ih : ∀ {as : MonomialSum R}, SumsApart a → a.extract = .ok as →
      Denotes Δ gdim as a.scope (a.value M))
    (h : (unary op a).extract = .ok ms) :
    Denotes Δ gdim ms (unary op a).scope ((unary op a).value M) := by
  cases op with
  | indexSum i => exact denotes_indexSum ha happly (ih hapart h)
  | indexed is =>
    obtain ⟨as, has, h⟩ := bind_eq_ok.mp h
    exact denotes_indexed happly hapart.2 (ih hapart.1 has) h
  | componentTensor ids =>
    obtain ⟨as, has, h⟩ := bind_eq_ok.mp h
    exact denotes_componentTensor ha happly (ih hapart has) h
  | spatialDerivative is =>
    obtain ⟨as, has, h⟩ := bind_eq_ok.mp h
    exact denotes_derivative hspace happly hapart.2 (ih hapart.1 has) h
  | restricted side =>
    obtain ⟨as, has, h⟩ := bind_eq_ok.mp h
    exact denotes_restricted (ih hapart has) h
  | labelled number =>
    -- a label is dropped
    have hscope : (unary (.labelled number) a).scope = a.scope := by
      rw [scope, shape_unary, free_unary]
      rfl
    rw [hscope]
    exact ih hapart h
  | math | abs | grad | referenceGrad | averaged => cases hop

/-! ### Operators over two operands -/

/-- The monomials of both operands, together, denote the sum. -/
theorem denotes_sum {bs : MonomialSum R}
    (happly : BinaryOp.apply .sum a b = .ok (binary .sum a b))
    (ha : Denotes Δ gdim ms a.scope (a.value M)) (hb : Denotes Δ gdim bs b.scope (b.value M)) :
    Denotes Δ gdim (ms.add bs) (binary .sum a b).scope ((binary .sum a b).value M) := by
  obtain ⟨hshape, hfree⟩ := attributes_add happly
  obtain ⟨hshapes, hfrees, -⟩ := add_built happly
  exact ha.add hb ⟨hshape, hfree⟩ ⟨hshape.trans hshapes, hfree.trans hfrees⟩
    ⟨List.subset_append_left _ _, List.subset_append_right _ _⟩
    ⟨List.subset_append_left _ _, List.subset_append_right _ _⟩

/-- A power of a polynomial denotes the power. -/
theorem denotes_power (hM : M.Exact) (hpow : M.ExactPowers) (ha : Canonical a)
    (happly : BinaryOp.apply .power a b = .ok (binary .power a b)) (hpower : PowerApart a b)
    (hms : Denotes Δ gdim ms a.scope (a.value M)) {n : Nat} (hn : b.exponent = .ok n) :
    Denotes Δ gdim (ms.pow n) (binary .power a b).scope ((binary .power a b).value M) := by
  obtain ⟨hs, -, -⟩ := pow_built happly
  -- the exponent is a number, so the summed indices are those of the base
  obtain ⟨hsummed, hexponent⟩ := exponent_ok hM hn
  obtain ⟨hshape, hfree⟩ := attributes_pow happly
  have hscope : (binary .power a b).scope = ⟨[], a.free, a.summed, []⟩ := by
    rw [scope, hshape, hfree]
    show Scope.mk [] a.free (a.summed ++ b.summed) [] = _
    rw [hsummed, List.append_nil]
  have hpowers := hms.pow hM hs ha.sorted n (fun h0 => hpower.zero (h0 ▸ hn)) (hpower.many n hn)
  rw [hscope]
  refine ⟨hpowers.within, fun c σ hc => Eq.trans ?_ (hpowers.value c σ hc)⟩
  rw [value_binary_power, hexponent, hpow.nat, List.eq_nil_of_length_eq_zero hc]

/-- What an operator on two operands does to the monomials, it does to the value. -/
theorem extract_denotes_binary {op : BinaryOp} (hM : M.Exact) (hpow : M.ExactPowers)
    (ha : Canonical a) (hb : Canonical b) (hop : op.isPolynomial)
    (happly : op.apply a b = .ok (binary op a b)) (hapart : SumsApart (binary op a b))
    (iha : ∀ {as : MonomialSum R}, SumsApart a → a.extract = .ok as →
      Denotes Δ gdim as a.scope (a.value M))
    (ihb : ∀ {bs : MonomialSum R}, SumsApart b → b.extract = .ok bs →
      Denotes Δ gdim bs b.scope (b.value M))
    (h : (binary op a b).extract = .ok ms) :
    Denotes Δ gdim ms (binary op a b).scope ((binary op a b).value M) := by
  -- the monomials of the operands, and how they are put together
  cases op with
  | sum =>
    obtain ⟨as, has, h⟩ := bind_eq_ok.mp h
    obtain ⟨bs, hbs, h⟩ := bind_eq_ok.mp h
    cases h
    exact denotes_sum happly (iha hapart.1 has) (ihb hapart.2 hbs)
  | product =>
    obtain ⟨as, has, h⟩ := bind_eq_ok.mp h
    obtain ⟨bs, hbs, h⟩ := bind_eq_ok.mp h
    cases h
    obtain ⟨haparta, hapartb, hfactors⟩ := hapart
    have hda := iha haparta has
    have hdb := ihb hapartb hbs
    exact hda.mul hM hdb (hfactors.multiplies has hbs hda.within hdb.within)
      (hfactors.scope ha.sorted hb.sorted happly)
  | power =>
    obtain ⟨n, hn, h⟩ := bind_eq_ok.mp h
    obtain ⟨as, has, h⟩ := bind_eq_ok.mp h
    cases h
    exact denotes_power hM hpow ha happly hapart.2 (iha hapart.1 has) hn
  | division => cases hop

/-! ### The whole -/

/-- **The monomials of an integrand** denote its values, where its summations are kept
apart. -/
theorem extract_denotes (hM : M.Exact) (hpow : M.ExactPowers) (hcan : Canonical e)
    (hpoly : Polynomial e) (hspace : InSpace gdim e) (hapart : SumsApart e)
    (h : e.extract = .ok ms) : Denotes Δ gdim ms e.scope (e.value M) := by
  induction e generalizing ms with
  -- literals and zeros have no factors; functions are their own
  | leaf t =>
    cases t with
    | argument t =>
      cases h
      cases hspace with
      | leaf hd =>
        refine denotes_function hM rfl ?_
        rw [signature_gdim (d := t.domain) (by rw [domain?, signature_leaf]; rfl)]
        exact hd _ rfl
    | coefficient t =>
      cases h
      cases hspace with
      | leaf hd =>
        refine denotes_function hM rfl ?_
        rw [signature_gdim (d := t.domain) (by rw [domain?, signature_leaf]; rfl)]
        exact hd _ rfl
    | literal v =>
      -- a coefficient without factors
      cases h
      have hscope : (leaf (.literal v) : Expr R).scope = numberScope := by
        rw [scope, shape_leaf_literal, free_leaf_literal]
        rfl
      rw [hscope]
      exact denotes_number v.value
    | zero shape free =>
      cases h
      exact ⟨fun m hm => absurd hm List.not_mem_nil, fun c σ _ => rfl⟩
    | geometry g => cases h
  | unary op a ih =>
    cases hcan with
    | unary ha happly =>
      cases hpoly with
      | unary hop hpa =>
        cases hspace with
        | unary hsa =>
          exact extract_denotes_unary ha hsa hop happly hapart (ih ha hpa hsa) h
  | binary op a b iha ihb =>
    cases hcan with
    | binary ha hb happly =>
      cases hpoly with
      | binary hop hpa hpb =>
        cases hspace with
        | binary hsa hsb =>
          exact extract_denotes_binary hM hpow ha hb hop happly hapart (iha ha hpa hsa)
            (ihb hb hpb hsb) h
  | listTensor items => cases h

end Denotes

end Expr

end WeakForm
