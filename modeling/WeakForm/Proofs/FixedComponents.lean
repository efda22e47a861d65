import WeakForm.Proofs.ComponentRenaming
import WeakForm.Proofs.Scalarization

/-!
# Components with fixed indices

Free indices can be fixed at positions before scalarization, or the components at these
positions can be selected after it. Fixing builds every operator anew over its fixed operands,
where it can be folded that could not be folded over all positions at once; scalarization
folds at every position. Both come to the same components, with one exception: a product whose
right factor becomes the literal one returns the left factor, and where that has the literal
one as a component, the component of the product is the right one. The integer one and the
real one are different literals, so the two ways differ where each factor has another one.

* `Renaming.Fixing` — indices are fixed or kept;
* `OnesKept` — no product mixes the literals that are one;
* `exists_rename_fixed` — the fixed expression is built, and follows;
* `layout`, `layout_fixed` — the places of all components, and those that are selected;
* `fix_scalarize` — fixing and selecting.
-/

namespace WeakForm

/-- An index is replaced by a position or not at all. -/
def Renaming.Fixing (ρ : Renaming) : Prop :=
  ∀ i k, ρ.onIndex (.free i) = .free k → k = i

namespace Renaming

variable {ρ : Renaming} {ids : List IndexId}

/-- Fixing fewer indices is still fixing. -/
theorem Fixing.without (h : ρ.Fixing) (ids : List IndexId) : (ρ.without ids).Fixing := by
  intro i k hik
  by_cases hi : i ∈ ids
  · rw [onIndex_without_of_mem hi] at hik
    exact (Index.free.inj hik).symm
  · rw [onIndex_without_of_not_mem hi] at hik
    exact h i k hik

/-- Fixed positions are captured by nothing. -/
theorem Fixing.avoids (h : ρ.Fixing) (free : FreeIndices) (bound : List IndexId) :
    ρ.Avoids free bound := by
  intro i _ hi j hj hfind
  obtain rfl : j = i := h i j (by rw [onIndex, hfind]; rfl)
  exact hi hj

/-- Positions in range fit, since none is an index. -/
theorem Fixing.fits {free : FreeIndices} (h : ρ.Fixing)
    (hbounded : ∀ y ∈ free, ∀ p, ρ.onIndex (.free y.id) = .fixed p → p < y.dim) :
    ρ.Fits free where
  bounded := hbounded
  apart _ _ _ _ _ hx hy := (h _ _ hx).symm.trans (h _ _ hy)

end Renaming

namespace Expr

variable {R : Type} [Scalar R] {ρ : Renaming} {a a' b b' e r : Expr R} {c : List Nat} {σ τ : Env}

/-! ## Expressions with components -/

omit [Scalar R] in
/-- An expression whose axes are not empty has a component. -/
theorem Positive.exists_component (h : e.Positive) : ∃ c, InShape c e.shape := by
  have hzero : ∀ {dims : List Nat}, (∀ d ∈ dims, 0 < d) → ∃ c, InShape c dims := by
    intro dims
    induction dims with
    | nil => exact fun _ => ⟨[], inShape_nil⟩
    | cons d dims ih =>
      intro hd
      obtain ⟨c, hc⟩ := ih fun d hmem => hd d (List.mem_cons_of_mem _ hmem)
      exact ⟨0 :: c, inShape_cons.mpr ⟨hd d List.mem_cons_self, hc⟩⟩
  exact hzero h.shape

omit [Scalar R] in
/-- The positions of replacements at zero are in range. -/
theorem Positive.inRange_pull (h : e.Positive) (hfit : ρ.Fits e.free) :
    e.free.InRange (ρ.pull fun _ => 0) :=
  Expr.inRange_pull hfit fun y hy _ _ => h.free y hy

omit [Scalar R] in
/-- An expression with a component has no empty axis. -/
theorem positive_of_component (hc : InShape c e.shape) (hσ : e.free.InRange σ) : e.Positive := by
  have hpos : ∀ {c dims : List Nat}, InShape c dims → ∀ d ∈ dims, 0 < d := by
    intro c dims hc d hd
    induction hc with
    | nil => cases hd
    | cons hp _ ih =>
      rcases List.mem_cons.mp hd with rfl | hd
      · exact Nat.zero_lt_of_lt hp
      · exact ih hd
  exact ⟨hpos hc, fun f hf => Nat.zero_lt_of_lt (hσ f hf)⟩

/-- Where an operator has components, its operand has some. -/
theorem Positive.operand {op : UnaryOp} (h : (unary op a).Positive) (hop : op.ByComponents)
    (hca : Canonical a) (happly : op.apply a = .ok (unary op a)) (hd : (unary op a).Determined) :
    a.Positive := by
  obtain ⟨c, hc⟩ := h.exists_component
  have hσ : (unary op a).free.InRange fun _ => 0 := h.free
  -- where nothing is bound, the operand has the free indices of the node
  have hkept : op.bound = [] → a.free.InRange fun _ => 0 := fun hb f hf =>
    hσ f ((mem_free_unary happly).mpr (.inl ⟨hf, by simp [hb]⟩))
  cases op with
  | math f =>
    have hshape : (unary (.math f) a).shape = a.shape :=
      (shape_unary _ a).trans (math_built happly).1.symm
    exact positive_of_component (hshape ▸ hc) (hkept rfl)
  | abs =>
    rw [shape_unary] at hc
    exact positive_of_component hc (hkept rfl)
  | indexed is =>
    obtain ⟨hl, hok⟩ := index_ok happly
    exact positive_of_component (hok.inShape hl hσ) (hkept rfl)
  | indexSum i =>
    obtain ⟨d, hd'⟩ := FreeIndices.has_iff.mp (sumOver_built happly).1
    have hdim := hca.sorted.dim?_eq_some.mpr hd'
    -- a sum without terms has no component
    obtain ⟨s, hs⟩ := hd c _ hc hσ
    rw [component_unary happly trivial hc, unaryComponent, hdim, Option.getD_some] at hs
    rw [shape_unary] at hc
    rw [free_unary] at hσ
    cases d with
    | zero => cases hs
    | succ n => exact positive_of_component hc (inRange_bind hca.sorted hσ hdim n.succ_pos)
  | componentTensor | restricted | grad | referenceGrad | spatialDerivative | averaged
    | labelled => cases hop

/-- Both operands have entries where a product, a sum or a power has. -/
theorem Positive.operands {op : BinaryOp} (h : (binary op a b).Positive) (hca : Canonical a)
    (hcb : Canonical b) (happly : op.apply a b = .ok (binary op a b)) :
    a.Positive ∧ b.Positive := by
  obtain ⟨c, hc⟩ := h.exists_component
  have hσ : (binary op a b).free.InRange fun _ => 0 := h.free
  obtain ⟨hca', hcb'⟩ := inShape_operands happly hc
  obtain ⟨hσa, hσb⟩ := inRange_operands hca.sorted hcb.sorted happly hσ
  exact ⟨positive_of_component hca' hσa, positive_of_component hcb' hσb⟩

/-! ## Fixing an expression -/

section Fixing

variable [DecidableEq R]

/-- At every product of which the right factor becomes the literal one and the left factor
does not, components of the left factor that are literals one are this one. -/
def OnesKept (ρ : Renaming) : Expr R → Prop
  | leaf _ | listTensor _ => True
  | unary op a => OnesKept (ρ.inside op) a
  | binary op a b => OnesKept ρ a ∧ OnesKept ρ b ∧ (op = .product →
      ∀ a' b', rename ρ a = .ok a' → rename ρ b = .ok b' → b'.isOne → a'.isOne = false →
        ∀ as, scalarize a' = .ok as → ∀ x ∈ as, x.isOne → x = b')

omit [DecidableEq R] in
/-- The components at the positions which the replacements stand for. -/
theorem Follows.component_pull (h : Follows ρ e r) (hc : InShape c e.shape)
    (hτ : e.free.InRange (ρ.pull σ)) : r.component c σ = e.component c (ρ.pull σ) :=
  h.component c σ _ hc hτ (ρ.carries_pull e.free σ)

omit [DecidableEq R] in
/-- What all components have an absolute value of has one after fixing. -/
theorem exists_abs_fixed (happly : UnaryOp.apply .abs a = .ok (unary .abs a))
    (hd : (unary .abs a).Determined) (hpos : a.Positive) (hfit : ρ.Fits a.free)
    (ha : Follows ρ a a') : ∃ r, a'.abs = .ok r := by
  refine (abs_outcome a').resolve_right ?_
  rintro ⟨v, rfl, -, herror⟩
  have hfree : (unary .abs a).free = a.free := free_unary _ a
  have hshape : (unary .abs a).shape = a.shape := shape_unary _ a
  -- some component of the operand is the literal, as all are
  obtain ⟨c, hc⟩ := hpos.exists_component
  have hτ := hpos.inRange_pull hfit
  obtain ⟨s, hs⟩ := hd c _ (hshape ▸ hc) (hfree ▸ hτ)
  rw [component_unary happly trivial (hshape ▸ hc)] at hs
  obtain ⟨x, hx, hs⟩ := Option.bind_eq_some_iff.mp hs
  rw [← ha.component_pull hc hτ] at hx
  have hscalar : (leaf (.literal v) : Expr R).isScalar :=
    isScalar_iff.mpr ⟨shape_leaf _, free_leaf _⟩
  rw [← ha.carried.shape, (isScalar_iff.mp hscalar).1] at hc
  obtain rfl := List.eq_nil_of_length_eq_zero hc.length
  rw [component_constant ha.carried.canonical rfl hscalar] at hx
  cases hx
  cases (toOption_eq_some.mp hs).symm.trans herror

omit [DecidableEq R] in
/-- What all components are divided by is not zero after fixing. -/
theorem not_zero_fixed (hca : Canonical a) (hcb : Canonical b)
    (happly : BinaryOp.apply .division a b = .ok (binary .division a b))
    (hd : (binary .division a b).Determined)
    (hpos : (binary .division a b).Positive) (hfit : ρ.Fits (binary .division a b).free)
    (hb : Follows ρ b b') : b'.isZero = false := by
  rw [← Bool.not_eq_true]
  intro hz
  -- otherwise there is a component in which the divisor is zero, but which has been built
  obtain ⟨c, hc⟩ := hpos.exists_component
  have hτ := hpos.inRange_pull hfit
  obtain ⟨s, hs⟩ := hd c _ hc hτ
  obtain ⟨x, y, -, hy, hxy⟩ := binaryComponent_eq_some.mp hs
  have hcs := (inShape_operands happly hc).2
  have hτb := (inRange_operands hca.sorted hcb.sorted happly hτ).2
  rw [← hb.component_pull hcs hτb, component_zero hz] at hy
  cases hy
  cases (div_built hxy).2.1

omit [DecidableEq R] in
/-- An expression without an index that is fixed stays as it is. -/
theorem rename_untouched (hc : Canonical e) (hs : Scalarizable e)
    (ht : ρ.touches e.free = false) : ∃ r, rename ρ e = .ok r ∧ Follows ρ e r :=
  ⟨e, by rw [rename.eq_def, if_neg (Bool.eq_false_iff.mp ht)], follows_self hc hs ht⟩

omit [DecidableEq R] in
/-- A zero is fixed by taking its indices out. -/
theorem rename_zero (hc : Canonical e) (hz : e.isZero) (ht : ρ.touches e.free)
    (hfit : ρ.Fits e.free) : ∃ r, rename ρ e = .ok r ∧ Follows ρ e r := by
  obtain ⟨t, rfl⟩ := leaf_of_isConstantValue (isConstantValue_of_isZero hz)
  have hsorted := hfit.sorted_onFree hc.sorted
  rw [rename.eq_def, if_pos ht]
  rw [free_leaf] at ht hsorted
  cases t with
  | zero shape free =>
    exact ⟨_, if_pos hsorted, follows_zero (carried_zero hsorted) rfl rfl⟩
  | argument | coefficient | geometry | literal => cases ht

omit [DecidableEq R] in
/-- An operator over an operand that has been fixed. -/
theorem exists_rename_unary {op : UnaryOp} (hop : op.ByComponents) (hca : Canonical a)
    (happly : op.apply a = .ok (unary op a)) (hd : (unary op a).Determined)
    (hpos : (unary op a).Positive) (hρ : ρ.Fixing) (hfit : ρ.Fits (unary op a).free)
    (ht : ρ.touches (unary op a).free) (hra : rename (ρ.without op.bound) a = .ok a')
    (ha : Follows (ρ.without op.bound) a a') :
    ∃ r, rename ρ (unary op a) = .ok r ∧ Follows ρ (unary op a) r := by
  have hav := hρ.avoids a.free op.bound
  have hfita := hfit.inside happly hav
  have habs : op = .abs → ∃ r, a'.abs = .ok r := by
    rintro rfl
    exact exists_abs_fixed happly hd (hpos.operand hop hca happly hd) hfita ha
  -- an absolute value is refused for some literals, but not here
  obtain ⟨r, hr⟩ := exists_apply_renamed (fun ids h => by rw [h] at hop; cases hop) happly hav
    hfit ha.carried (.inl hop.computes) habs
  refine ⟨r, ?_, ?_⟩
  · rw [rename.eq_def, if_pos ht]
    exact bind_eq_ok.mpr ⟨a', by rw [Renaming.inside_eq, hra], hr⟩
  -- a sum binds its index, over which fixing leaves it free
  by_cases hsum : ∃ i, op = .indexSum i
  · obtain ⟨i, rfl⟩ := hsum
    have hdim : a'.free.dim? i = a.free.dim? i :=
      ha.carried.canonical.sorted.dim?_congr hca.sorted fun d =>
        image_bound hav ha.carried.free (List.mem_singleton.mpr rfl)
    exact follows_sumOver hca happly hd hfit ha hdim
      (fun σ τ hcarry j => carries_bind happly hcarry hav rfl) hr
      (carried_unary hca happly (.inl hop.computes) hav ha.carried hr)
  · have hbound := hop.bound_eq_nil fun i h => hsum ⟨i, h⟩
    rw [hbound, ρ.without_nil] at ha
    exact follows_onOp hop hbound hca happly hd hfit ha hr

/-- Algebra over operands that have been fixed. -/
theorem exists_rename_binary {op : BinaryOp} (hca : Canonical a) (hcb : Canonical b)
    (happly : op.apply a b = .ok (binary op a b)) (hd : (binary op a b).Determined)
    (hsame : op ≠ .product → (a.Positive ↔ b.Positive)) (hpos : (binary op a b).Positive)
    (hfit : ρ.Fits (binary op a b).free) (ht : ρ.touches (binary op a b).free)
    (hra : rename ρ a = .ok a') (hrb : rename ρ b = .ok b') (ha : Follows ρ a a')
    (hb : Follows ρ b b')
    (hone : op = .product → b'.isOne → a'.isOne = false →
      ∀ as, scalarize a' = .ok as → ∀ x ∈ as, x.isOne → x = b') :
    ∃ r, rename ρ (binary op a b) = .ok r ∧ Follows ρ (binary op a b) r := by
  have hz : op = .division → b'.isZero = false := by
    rintro rfl
    exact not_zero_fixed hca hcb happly hd hpos hfit hb
  obtain ⟨r, hr⟩ := exists_apply_renamed₂ hca hcb happly hfit ha.carried hb.carried hz
  refine ⟨r, ?_, follows_binary hca hcb happly hd hsame hfit ha hb hr ?_⟩
  · rw [rename.eq_def, if_pos ht]
    exact bind_eq_ok.mpr ⟨a', hra, bind_eq_ok.mpr ⟨b', hrb, hr⟩⟩
  -- the components of both operands exist
  · intro c σ s hc hσa hσb hca' hcb' hs
    obtain ⟨x, y, hx, hy, hxy⟩ := binaryComponent_eq_some.mp hs
    have hcx := ha.scalarizable.component_canonical ha.carried.canonical hca' hσa hx
    have hcy := hb.scalarizable.component_canonical hb.carried.canonical hcb' hσb hy
    refine component_apply₂ ha.carried.canonical hb.carried.canonical hcx hcy hr hc hx hy hxy
      fun hop hone' hna hx₁ => ?_
    -- the component of the left factor stands in the list of components
    obtain ⟨as, has, hlist⟩ := ha.scalarizable.scalarize ha.carried.canonical
    have hplace := (hlist.entry _ σ hca' hσa).trans hx
    exact hone hop hone' hna as has x (Array.mem_of_getElem? hplace) hx₁

/-- **Fixing an expression that is scalarized succeeds, and the result follows.** -/
theorem exists_rename_fixed (hs : Scalarizable e) (hc : Canonical e) (hpos : e.Positive)
    (hρ : ρ.Fixing) (hfit : ρ.Fits e.free) (hones : OnesKept ρ e) :
    ∃ r, rename ρ e = .ok r ∧ Follows ρ e r := by
  -- the renaming is not the same under a sum, which binds its index
  induction hs generalizing ρ with
  | @terminal e hm hd =>
    by_cases ht : ρ.touches e.free
    · cases hz : e.isZero with
      | true => exact rename_zero hc hz ht hfit
      | false => exact ⟨_, (exists_rename_chain hc hm hz hfit).1, follows_chain hc hm hz hd hfit⟩
    · exact rename_untouched hc (.terminal hm hd) (by simpa using ht)
  | @unary op a hop hm hsa hd ih =>
    by_cases ht : ρ.touches (unary op a).free
    -- a chain is renamed as a whole
    · cases hc with
      | unary hca happly =>
        rw [OnesKept, Renaming.inside_eq] at hones
        obtain ⟨a', hra, ha⟩ := ih hca (hpos.operand hop hca happly hd) (hρ.without op.bound)
          (hfit.inside happly (hρ.avoids a.free op.bound)) hones
        exact exists_rename_unary hop hca happly hd hpos hρ hfit ht hra ha
    · exact rename_untouched hc (.unary hop hm hsa hd) (by simpa using ht)
  | @binary op a b hsa hsb hsame hd iha ihb =>
    by_cases ht : ρ.touches (binary op a b).free
    · cases hc with
      | binary hca hcb happly =>
        obtain ⟨honesa, honesb, hone⟩ := hones
        obtain ⟨hposa, hposb⟩ := hpos.operands hca hcb happly
        obtain ⟨hfita, hfitb⟩ := fits_operands hfit hca hcb happly
        obtain ⟨a', hra, ha⟩ := iha hca hposa hρ hfita honesa
        obtain ⟨b', hrb, hb⟩ := ihb hcb hposb hρ hfitb honesb
        exact exists_rename_binary hca hcb happly hd hsame hpos hfit ht hra hrb ha hb
          fun hop => hone hop a' b' hra hrb
    · exact rename_untouched hc (.binary hsa hsb hsame hd) (by simpa using ht)

end Fixing

/-! ## The places of components -/

/-- The positions for axes and for free indices, in the order of components. -/
def layout (e : Expr R) : List (List Nat × Assignment) :=
  (WeakForm.components e.shape).flatMap fun c => (Assignment.all e.free).map (c, ·)

end Expr

namespace Assignment

variable {s : Assignment} {i k : IndexId} {p : Nat}

/-- Fixed indices have the positions that replace them. -/
def agrees (ρ : Renaming) (free : FreeIndices) (s : Assignment) : Bool :=
  free.all fun f => match ρ.onIndex (.free f.id) with
    | .fixed p => s.position f.id == p
    | .free _ => true

theorem position_cons_self : position ((i, p) :: s) i = p := by
  simp [position]

theorem position_cons_of_ne (h : k ≠ i) : position ((i, p) :: s) k = s.position k := by
  rw [position, position, List.lookup_cons, beq_eq_false_iff_ne.mpr h]

end Assignment

namespace FreeIndices

variable {ρ : Renaming} {free : FreeIndices} {f : FreeIndex} {s : Assignment} {σ τ : Env}
  {p : Nat}

/-- The free indices that are not fixed. -/
def kept (ρ : Renaming) (free : FreeIndices) : FreeIndices :=
  free.filter fun f => ρ.onIndex (.free f.id) == .free f.id

/-- The assignments run through the positions of the first index, then of the rest. -/
theorem all_cons : Assignment.all (f :: free) =
    (List.range f.dim).flatMap fun p => (Assignment.all free).map ((f.id, p) :: ·) := by
  simp only [Assignment.all, dims, List.map_cons, components_cons, List.map_flatMap, List.map_map]
  rfl

theorem assignment_cons : assignment (f :: free) σ = (f.id, σ f.id) :: free.assignment σ := rfl

/-- Only the free indices are assigned. -/
theorem assignment_congr (h : ∀ g ∈ free, σ g.id = τ g.id) :
    free.assignment σ = free.assignment τ := by
  rw [assignment, assignment, List.map_map, List.map_map]
  exact congrArg _ (List.map_congr_left h)

/-- The position of one index more does not count for the others. -/
theorem agrees_cons (hne : ∀ g ∈ free, g.id ≠ f.id) :
    Assignment.agrees ρ (f :: free) ((f.id, p) :: s) =
      ((match ρ.onIndex (.free f.id) with
        | .fixed q => p == q
        | .free _ => true) && s.agrees ρ free) := by
  rw [Assignment.agrees, List.all_cons, Assignment.position_cons_self]
  refine congrArg _ ?_
  rw [Assignment.agrees, Bool.eq_iff_iff, List.all_eq_true, List.all_eq_true]
  refine forall₂_congr fun g hg => ?_
  rw [Assignment.position_cons_of_ne (hne g hg)]

/-- A fixed index is not assigned by the renaming. -/
theorem pull_cons (hρ : ρ.Fixing) (hne : ∀ g ∈ free, g.id ≠ f.id) :
    ∀ g ∈ free, ρ.pull (Assignment.position ((f.id, p) :: s)) g.id = ρ.pull s.position g.id := by
  intro g hg
  rw [Renaming.pull, Renaming.pull]
  cases hon : ρ.onIndex (.free g.id) with
  | fixed q => rfl
  | free k =>
    obtain rfl := hρ _ _ hon
    exact Assignment.position_cons_of_ne (hne g hg)

/-- Of consecutive rows, all but one empty. -/
theorem flatMap_range_single {β : Type} {rows : Nat → List β} {p n : Nat} (hp : p < n)
    (h : ∀ q, q ≠ p → rows q = []) : (List.range n).flatMap rows = rows p := by
  induction n with
  | zero => cases hp
  | succ n ih =>
    rw [List.range_succ, List.flatMap_append, List.flatMap_singleton]
    -- all other rows are empty
    by_cases hpn : p = n
    · have hempty : (List.range n).flatMap rows = [] := by
        refine List.flatMap_eq_nil_iff.mpr fun q hq => h q ?_
        rw [hpn]
        exact Nat.ne_of_lt (List.mem_range.mp hq)
      rw [hempty, List.nil_append, hpn]
    · rw [ih (by omega), h n (Ne.symm hpn), List.append_nil]

/-- **The assignments that agree with a renaming** are those to the indices that are kept, with
the positions of the indices that are fixed. -/
theorem filter_all (hs : free.Sorted) (hρ : ρ.Fixing) (hfit : ρ.Fits free) :
    (Assignment.all free).filter (Assignment.agrees ρ free) =
      (Assignment.all (kept ρ free)).map fun s => free.assignment (ρ.pull s.position) := by
  induction free with
  | nil => rfl
  | cons f free ih =>
    have ih := ih hs.tail (hfit.mono fun x hx => List.mem_cons_of_mem _ hx)
    have hne : ∀ g ∈ free, g.id ≠ f.id := fun g hg => Nat.ne_of_gt (hs.head_lt hg)
    -- the rows of the first index, of which the entries agree with the renaming if both it and
    -- the other indices do
    have hrow : ∀ p, ((Assignment.all free).map ((f.id, p) :: ·)).filter
        (Assignment.agrees ρ (f :: free)) = ((Assignment.all free).filter fun s =>
          (match ρ.onIndex (.free f.id) with
            | .fixed q => p == q
            | .free _ => true) && Assignment.agrees ρ free s).map ((f.id, p) :: ·) := fun p => by
      rw [List.filter_map]
      refine congrArg _ (congrArg (List.filter · _) (funext fun s => ?_))
      exact agrees_cons hne
    rw [all_cons, List.filter_flatMap, List.flatMap_congr fun p _ => hrow p]
    cases hon : ρ.onIndex (.free f.id) with
    | fixed q =>
      -- one row is left, that of the position
      have hq : q < f.dim := hfit.bounded f List.mem_cons_self q hon
      have hkept : kept ρ (f :: free) = kept ρ free := by
        rw [kept, List.filter_cons_of_neg (by simp [hon])]
        rfl
      rw [flatMap_range_single hq fun p hp => by simp [beq_eq_false_iff_ne.mpr hp], hkept]
      simp only [beq_self_eq_true, Bool.true_and]
      rw [ih, List.map_map]
      refine List.map_congr_left fun s _ => ?_
      rw [Function.comp_apply, assignment_cons, Renaming.pull, hon]
      rfl
    | free k =>
      -- all rows are left
      obtain rfl := hρ _ _ hon
      have hkept : kept ρ (f :: free) = f :: kept ρ free := by
        rw [kept, List.filter_cons_of_pos (by simp [hon])]
        rfl
      rw [hkept, all_cons, List.map_flatMap]
      refine List.flatMap_congr fun p _ => ?_
      simp only [Bool.true_and]
      rw [ih, List.map_map, List.map_map]
      refine List.map_congr_left fun s _ => ?_
      rw [Function.comp_apply, Function.comp_apply, assignment_cons, assignment_congr
        (pull_cons hρ hne), Renaming.pull, hon, Env.resolve_free, Assignment.position_cons_self]

end FreeIndices

/-! ## Selected components -/

namespace Expr

variable {R : Type} [Scalar R] {ρ : Renaming} {e e' r : Expr R} {as bs : Array (Expr R)}

/-- **A list of components has them in their order.** -/
theorem Componentwise.toList (h : Componentwise e as) (hc : Canonical e) :
    as.toList.map some = e.layout.map fun q => e.component q.1 q.2.position := by
  refine List.ext_getElem? fun k => ?_
  rw [List.getElem?_map, List.getElem?_map, Array.getElem?_toList]
  -- a position in the list is the place of a component, or beyond both lists
  by_cases hk : k < as.size
  · have hsome := Array.getElem?_eq_getElem hk
    rw [h.size] at hk
    obtain ⟨c, σ, hcs, hσ, rfl⟩ := exists_placeAt hc.sorted hk
    have hplace : e.layout[e.placeAt c σ]? = some (c, e.free.assignment σ) :=
      getElem?_places hcs hσ
    have hposition : e.component c (e.free.assignment σ).position = e.component c σ :=
      component_congr hc fun i hi => by
        obtain ⟨d, hd⟩ := FreeIndices.has_iff.mp hi
        exact FreeIndices.position_assignment hd
    rw [hplace, Option.map_some, hposition, ← h.entry c σ hcs hσ, hsome, Option.map_some]
  · have hlength : e.layout.length ≤ k := by
      rw [layout, length_places, ← h.size]
      omega
    rw [Array.getElem?_eq_none (by omega), List.getElem?_eq_none hlength]
    rfl

/-- The components of what follows under fixed positions are those at the places which agree
with them. -/
theorem layout_fixed (h : Follows ρ e r) (hc : Canonical e) (hρ : ρ.Fixing)
    (hfit : ρ.Fits e.free) : (r.layout.map fun q => r.component q.1 q.2.position) =
      (e.layout.filter fun q => q.2.agrees ρ e.free).map
        fun q => e.component q.1 q.2.position := by
  -- fixing replaces no index by another one, so the free indices are those that it keeps
  have hfree : r.free = FreeIndices.kept ρ e.free := by
    refine h.carried.canonical.sorted.eq_of_mem_iff (hc.sorted.filter _) fun x => ?_
    rw [h.carried.free, FreeIndices.kept, List.mem_filter, beq_iff_eq]
    constructor
    · rintro ⟨y, hy, hyx, hdim⟩
      obtain rfl := FreeIndex.eq_of_id_of_dim (hρ _ _ hyx).symm hdim
      exact ⟨hy, hyx⟩
    · rintro ⟨hx, hon⟩
      exact ⟨x, hx, hon, rfl⟩
  rw [layout, layout, h.carried.shape, List.filter_flatMap, List.map_flatMap, List.map_flatMap]
  refine List.flatMap_congr fun c hcs => ?_
  have hcs := mem_components.mp hcs
  have hagree : (fun q : List Nat × Assignment => q.2.agrees ρ e.free) ∘ (c, ·) =
      Assignment.agrees ρ e.free := rfl
  rw [List.filter_map, hagree, FreeIndices.filter_all hc.sorted hρ hfit, hfree, List.map_map,
    List.map_map, List.map_map, ← hfree]
  -- row by row, the remaining indices take all their positions
  refine List.map_congr_left fun s hs => ?_
  obtain ⟨σ, hσ, rfl⟩ := h.carried.canonical.sorted.mem_all hs
  have hs : r.free.InRange (r.free.assignment σ).position := fun f hf => by
    rw [FreeIndices.position_assignment hf]
    exact hσ f hf
  have hτ := h.carried.inRange_pull hfit hs
  show r.component c (r.free.assignment σ).position =
    e.component c (e.free.assignment (ρ.pull (r.free.assignment σ).position)).position
  rw [h.component_pull hcs hτ]
  refine (component_congr hc fun i hi => ?_).symm
  obtain ⟨d, hd⟩ := FreeIndices.has_iff.mp hi
  exact FreeIndices.position_assignment hd

/-- What is selected by the items of another list. -/
theorem map_filter_zip {α β γ : Type} {items : List α} {values : List β} {f : α → γ} {g : β → γ}
    (h : values.map g = items.map f) (P : α → Bool) :
    ((items.zip values).filter fun q => P q.1).map (fun q => g q.2) = (items.filter P).map f := by
  induction items generalizing values with
  | nil => simp
  | cons x items ih =>
    cases values with
    | nil => cases h
    | cons y values =>
      obtain ⟨hy, h⟩ := List.cons.inj h
      have ih := ih h
      rw [List.zip_cons_cons, List.filter_cons, List.filter_cons]
      cases P x with
      | true => simp [hy, ih]
      | false => simpa using ih

/-- **Fixing before scalarization is selecting after it.** -/
theorem toList_fixed (h : Follows ρ e r) (hlist : Componentwise e as) (hlist' : Componentwise r bs)
    (hc : Canonical e) (hρ : ρ.Fixing) (hfit : ρ.Fits e.free) :
    bs.toList = ((e.layout.zip as.toList).filter fun q => q.1.2.agrees ρ e.free).map (·.2) := by
  -- both lists are compared as lists of components, all of which are built
  refine List.map_injective_iff.mpr (Option.some_injective _) ?_
  rw [hlist'.toList h.carried.canonical, layout_fixed h hc hρ hfit, List.map_map]
  exact (map_filter_zip (hlist.toList hc) fun q => q.2.agrees ρ e.free).symm

/-! ## Given indices at given positions -/

section Pairs

variable {ids : List IndexId} {positions : List Nat} {i : IndexId} {p q : Nat}

/-- No index has two positions. -/
theorem eq_of_mem_zip (hids : ids.Nodup) (hp : (i, p) ∈ ids.zip positions)
    (hq : (i, q) ∈ ids.zip positions) : p = q := by
  induction ids generalizing positions with
  | nil => simp at hp
  | cons k ids ih =>
    cases positions with
    | nil => simp at hp
    | cons m positions =>
      obtain ⟨hk, hids⟩ := List.nodup_cons.mp hids
      rw [List.zip_cons_cons, List.mem_cons, Prod.mk.injEq] at hp hq
      rcases hp with ⟨rfl, rfl⟩ | hp
      · rcases hq with ⟨-, rfl⟩ | hq
        · rfl
        · exact absurd (List.of_mem_zip hq).1 hk
      · rcases hq with ⟨rfl, -⟩ | hq
        · exact absurd (List.of_mem_zip hp).1 hk
        · exact ih hids hp hq

/-- The renaming that fixes indices at positions, paired in order. -/
abbrev fixing (ids : List IndexId) (positions : List Nat) : Renaming :=
  Renaming.ofPairs (ids.zip (positions.map Index.fixed))

/-- An index that is fixed gets its position. -/
theorem onIndex_fixing (hids : ids.Nodup) (h : (i, p) ∈ ids.zip positions) :
    (fixing ids positions).onIndex (.free i) = .fixed p := by
  have hfind : (fixing ids positions).find? i = some (.fixed p) := by
    -- the pairs of the renaming, with the last one in front
    have hmem : ∀ {j : Index}, (i, j) ∈ fixing ids positions ↔
        ∃ q, (i, q) ∈ ids.zip positions ∧ j = .fixed q := fun {j} => by
      rw [fixing, Renaming.ofPairs, List.mem_reverse, List.zip_map_right, List.mem_map]
      constructor
      · rintro ⟨⟨k, q⟩, hq, heq⟩
        cases heq
        exact ⟨q, hq, rfl⟩
      · rintro ⟨q, hq, rfl⟩
        exact ⟨(i, q), hq, rfl⟩
    refine lookup_eq_some ⟨_, hmem.mpr ⟨p, h, rfl⟩⟩ fun x hx hxi => ?_
    obtain ⟨k, j⟩ := x
    obtain rfl : k = i := hxi
    obtain ⟨q, hq, rfl⟩ := hmem.mp hx
    exact congrArg Index.fixed (eq_of_mem_zip hids hq h)
  rw [Renaming.onIndex, hfind, Option.getD_some]

/-- Other indices stay. -/
theorem onIndex_fixing_of_not_mem (h : i ∉ ids) :
    (fixing ids positions).onIndex (.free i) = .free i := by
  have hfind : (fixing ids positions).find? i = none := by
    rw [Renaming.find?, List.lookup_eq_none_iff]
    intro x hx
    have hx := (List.of_mem_zip (List.mem_reverse.mp hx)).1
    exact bne_iff_ne.mpr fun heq => h (heq ▸ hx)
  rw [Renaming.onIndex, hfind, Option.getD_none]

/-- An index is fixed at the position that it is paired with. -/
theorem onIndex_fixing_iff (hids : ids.Nodup) (hl : ids.length = positions.length) :
    (fixing ids positions).onIndex (.free i) = .fixed p ↔ (i, p) ∈ ids.zip positions := by
  refine ⟨fun h => ?_, onIndex_fixing hids⟩
  by_cases hi : i ∈ ids
  · obtain ⟨q, hq⟩ := exists_mem_zip hl hi
    cases (onIndex_fixing hids hq).symm.trans h
    exact hq
  · rw [onIndex_fixing_of_not_mem hi] at h
    cases h

/-- The renaming of indices to positions fixes them. -/
theorem fixing_fixing (hids : ids.Nodup) (hl : ids.length = positions.length) :
    (fixing ids positions).Fixing := by
  intro i k h
  by_cases hi : i ∈ ids
  · obtain ⟨p, hp⟩ := exists_mem_zip hl hi
    cases (onIndex_fixing hids hp).symm.trans h
  · rw [onIndex_fixing_of_not_mem hi] at h
    exact (Index.free.inj h).symm

/-- Assignments agree where the given indices have the given positions. -/
theorem agrees_fixing {free : FreeIndices} (hids : ids.Nodup) (hl : ids.length = positions.length)
    (hfree : ∀ i ∈ ids, free.has i) (s : Assignment) :
    s.agrees (fixing ids positions) free =
      (ids.zip positions).all fun f => s.position f.1 == f.2 := by
  rw [Assignment.agrees, Bool.eq_iff_iff, List.all_eq_true, List.all_eq_true]
  -- each index that is fixed is free, and no other one is replaced
  constructor
  · rintro h ⟨i, p⟩ hmem
    obtain ⟨d, hd⟩ := FreeIndices.has_iff.mp (hfree i (List.of_mem_zip hmem).1)
    have := h _ hd
    rwa [onIndex_fixing hids hmem] at this
  · intro h f hf
    cases hon : (fixing ids positions).onIndex (.free f.id) with
    | fixed p => exact h (f.id, p) ((onIndex_fixing_iff hids hl).mp hon)
    | free k => rfl

end Pairs

/-- **Fixing indices commutes with scalarization**, where no product mixes the literals that
are one. The components of the fixed expression are those of the expression at the places
where the indices have the given positions, in order. -/
theorem fix_scalarize [DecidableEq R] {ids : List IndexId} {positions : List Nat} (hb : Built e)
    (hpos : e.Positive) (has : scalarize e = .ok as) (hids : ids.Nodup)
    (hfree : ∀ i ∈ ids, e.free.has i) (hl : ids.length = positions.length)
    (hrange : ∀ f ∈ e.free, ∀ p, (f.id, p) ∈ ids.zip positions → p < f.dim)
    (hones : OnesKept (fixing ids positions) e) :
    ∃ e' bs, e.fix ids positions = .ok e' ∧ scalarize e' = .ok bs ∧
      bs.toList = ((e.layout.zip as.toList).filter fun q =>
        (ids.zip positions).all fun f => q.1.2.position f.1 == f.2).map (·.2) := by
  have hc := hb.canonical
  have hρ := fixing_fixing hids hl
  have hfit : (fixing ids positions).Fits e.free := hρ.fits fun y hy p hp =>
    hrange y hy p ((onIndex_fixing_iff hids hl).mp hp)
  obtain ⟨hlist, hs⟩ := componentwise_scalarize hc has
  -- fixing gives an expression with the components at these positions
  obtain ⟨e', hr, hfollows⟩ := exists_rename_fixed hs hc hpos hρ hfit hones
  obtain ⟨bs, hbs, hlist'⟩ := hfollows.scalarizable.scalarize hfollows.carried.canonical
  refine ⟨e', bs, ?_, hbs, ?_⟩
  · rw [fix, if_pos hl, substitute_eq_rename, hr]
  -- what is selected are the positions that agree with the fixed ones
  · rw [toList_fixed hfollows hlist hlist' hc hρ hfit]
    simp only [agrees_fixing hids hl hfree]

/-- Of the products of the components of two vectors, the last one. -/
theorem fix_scalarize_twoVectors :
    ∃ e' bs, TwoVectors.product.fix [0] [1] = .ok e' ∧ scalarize e' = .ok bs ∧
      bs.toList = [binary .product (TwoVectors.entry 0 (.fixed 1))
        (TwoVectors.entry 1 (.fixed 1))] := by
  have hfree : TwoVectors.product.free = [⟨0, 2⟩] := by cbv
  have hshape : TwoVectors.product.shape = [] := by cbv
  have hpos : TwoVectors.product.Positive := by
    refine ⟨fun d hd => ?_, fun f hf => ?_⟩
    · rw [hshape] at hd
      cases hd
    · rw [hfree, List.mem_singleton] at hf
      rw [hf]
      decide
  have hrange : ∀ f ∈ TwoVectors.product.free, ∀ p, (f.id, p) ∈ [0].zip [1] → p < f.dim := by
    rw [hfree]
    intro f hf p hp
    rw [List.mem_singleton.mp hf] at hp ⊢
    cases List.mem_singleton.mp hp
    decide
  -- no factor becomes a literal
  have hones : OnesKept (fixing [0] [1]) TwoVectors.product := by
    have hfactor : rename (fixing [0] [1]) (TwoVectors.entry 1 (.free 0)) =
        .ok (TwoVectors.entry 1 (.fixed 1)) := by with_unfolding_all rfl
    refine ⟨trivial, trivial, fun _ a' b' _ hb hone => ?_⟩
    cases hfactor.symm.trans hb
    cases hone
  have hlength : [0].length = [1].length := rfl
  obtain ⟨e', bs, hfix, hbs, hlist⟩ := fix_scalarize TwoVectors.built_product hpos
    TwoVectors.scalarize_product (List.nodup_singleton 0) (by rw [hfree]; decide) hlength hrange
    hones
  refine ⟨e', bs, hfix, hbs, hlist.trans ?_⟩
  rw [layout, hshape, hfree]
  with_unfolding_all rfl

/-! ### Two literals that are one -/

namespace MixedOnes

/-- A power of which every component is the real one. -/
def one (i : IndexId) : Expr ℚ :=
  binary .power (leaf (.zero [] [⟨i, 2⟩])) (zero [])

/-- The negative of the power, of which every component is the integer minus one. -/
def negative : Expr ℚ :=
  binary .product (one 1) (leaf (.literal (.int (-1))))

/-- Its absolute value, of which every component is the integer one. -/
def left : Expr ℚ :=
  unary .abs negative

def product : Expr ℚ :=
  binary .product left (one 2)

/-- The power is built. -/
theorem built_one {i : IndexId} (h : i = 1 ∨ i = 2) : Built (one i) := by
  have hzero : zeroOver (R := ℚ) [] [⟨i, 2⟩] = .ok (leaf (.zero [] [⟨i, 2⟩])) := by
    rcases h with rfl | rfl
    · cbv
    · cbv
  have hpower : BinaryOp.apply .power (leaf (.zero [] [⟨i, 2⟩])) (zero []) = .ok (one i) := by
    rcases h with rfl | rfl
    · cbv
    · cbv
  exact .binary (.zeroOver hzero) (.zero []) hpower

/-- The left factor is built. -/
theorem built_left : Built left := by
  have hliteral : literal (.int (-1)) = (leaf (.literal (.int (-1))) : Expr ℚ) := by
    cbv
  have hproduct : BinaryOp.apply .product (one 1) (leaf (.literal (.int (-1)))) = .ok negative := by
    cbv
  have habs : UnaryOp.apply .abs negative = .ok left := by
    cbv
  exact .unary (.binary (built_one (.inl rfl)) (hliteral ▸ .literal (.int (-1))) hproduct) habs

/-- The product is built. -/
theorem built_product : Built product := by
  have hproduct : BinaryOp.apply .product left (one 2) = .ok product := by
    cbv
  exact .binary built_left (built_one (.inr rfl)) hproduct

/-- All four components of the product are the real one. -/
theorem scalarize_product : scalarize product =
    .ok #[leaf (.literal (.real 1)), leaf (.literal (.real 1)), leaf (.literal (.real 1)),
      leaf (.literal (.real 1))] := by
  with_unfolding_all rfl

theorem scalarize_left : scalarize left =
    .ok #[leaf (.literal (.int 1)), leaf (.literal (.int 1))] := by
  with_unfolding_all rfl

theorem fix_product : product.fix [2] [0] = .ok left := by
  rw [fix, if_pos (show [2].length = [0].length from rfl), substitute_eq_rename]
  with_unfolding_all rfl

end MixedOnes

/-- Where a product mixes the literals that are one, its components are real ones, and become
integer ones by fixing the index of the right factor. -/
theorem scalarize_mixedOnes :
    Built MixedOnes.product ∧ MixedOnes.product.shape = [] ∧
      MixedOnes.product.free = [⟨1, 2⟩, ⟨2, 2⟩] ∧
      ∃ as, scalarize MixedOnes.product = .ok as ∧
        ¬∃ e' bs, MixedOnes.product.fix [2] [0] = .ok e' ∧ scalarize e' = .ok bs ∧
          bs.toList = ((MixedOnes.product.layout.zip as.toList).filter fun q =>
            ([2].zip [0]).all fun f => q.1.2.position f.1 == f.2).map (·.2) := by
  have hshape : MixedOnes.product.shape = [] := by cbv
  have hfree : MixedOnes.product.free = [⟨1, 2⟩, ⟨2, 2⟩] := by cbv
  refine ⟨MixedOnes.built_product, hshape, hfree, _, MixedOnes.scalarize_product, ?_⟩
  rintro ⟨e', bs, hfix, hbs, hlist⟩
  cases MixedOnes.fix_product.symm.trans hfix
  cases MixedOnes.scalarize_left.symm.trans hbs
  have hselected : ((MixedOnes.product.layout.zip [leaf (.literal (.real 1)),
      leaf (.literal (.real 1)), leaf (.literal (.real 1)), leaf (.literal (.real 1))]).filter
        fun q => ([2].zip [0]).all fun f => q.1.2.position f.1 == f.2).map (·.2) =
          ([leaf (.literal (.real 1)), leaf (.literal (.real 1))] : List (Expr ℚ)) := by
    rw [layout, hshape, hfree]
    with_unfolding_all rfl
  cases hlist.trans hselected

end Expr

end WeakForm
