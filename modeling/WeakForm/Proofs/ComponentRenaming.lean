import WeakForm.Proofs.ComponentFolding

/-!
# Components under a renaming

What replaces the free indices of an expression says at which positions it is read: the
components of the result are components of the expression, at the positions that the
replacements stand for. An expression *follows* another one under a renaming when that is so,
and when it is scalarized, too. Operators keep this, whether they are put on top of what
follows their operands or are folded away.

* `Renaming.pull`, `Carried.inRange`, `Carried.inRange_pull` — positions under a renaming;
* `component_congr` — only the positions of free indices count;
* `Follows` — components under a renaming;
* `follows_self`, `follows_zero`, `follows_chain` — expressions that follow;
* `follows_onOp`, `follows_sumOver`, `follows_binary` — what is built over operands that follow.
-/

namespace WeakForm

/-- The positions that the replacements of all indices stand for. -/
def Renaming.pull (ρ : Renaming) (σ : Env) : Env :=
  fun i => σ.resolve (ρ.onIndex (.free i))

theorem Renaming.carries_pull (ρ : Renaming) (free : FreeIndices) (σ : Env) :
    ρ.Carries free σ (ρ.pull σ) :=
  fun _ _ => rfl

namespace UnaryOp.ByComponents

variable {op : UnaryOp}

/-- What works by components needs no domain. -/
theorem computes (h : op.ByComponents) : op.Computes := by
  intro hm
  cases op with
  | indexed is => exact ⟨is, rfl⟩
  | math | abs | indexSum => cases hm
  | componentTensor | restricted | grad | referenceGrad | spatialDerivative | averaged
    | labelled => cases h

theorem onOp (h : op.ByComponents) (ρ : Renaming) : (ρ.onOp op).ByComponents := by
  cases op <;> exact h

/-- Of the operators that are scalarized by components, only sums bind an index. -/
theorem bound_eq_nil (h : op.ByComponents) (hsum : ∀ i, op ≠ .indexSum i) : op.bound = [] := by
  cases op with
  | indexSum i => exact absurd rfl (hsum i)
  | math | abs | indexed => rfl
  | componentTensor | restricted | grad | referenceGrad | spatialDerivative | averaged
    | labelled => cases h

end UnaryOp.ByComponents

namespace Expr

variable {R : Type} [Scalar R] {ρ : Renaming} {a a' b b' e r : Expr R} {c : List Nat} {σ τ : Env}

/-! ## Positions under a renaming -/

/-- Positions in range give the replacements positions in range. -/
theorem Carried.inRange (h : Carried ρ e r) (hτ : e.free.InRange τ)
    (hcarry : ρ.Carries e.free σ τ) : r.free.InRange σ := by
  intro x hx
  obtain ⟨y, hy, hyx, hdim⟩ := (h.free x).mp hx
  have hσ := hcarry y.id (FreeIndices.has_of_mem hy)
  rw [hyx, Env.resolve_free] at hσ
  rw [hσ, ← hdim]
  exact hτ y hy

/-- Replacements that are in range give positions in range. -/
theorem inRange_pull {free : FreeIndices} (hfit : ρ.Fits free)
    (hσ : ∀ y ∈ free, ∀ k, ρ.onIndex (.free y.id) = .free k → σ k < y.dim) :
    free.InRange (ρ.pull σ) := by
  intro y hy
  rw [Renaming.pull]
  cases hon : ρ.onIndex (.free y.id) with
  | fixed p => exact hfit.bounded y hy p hon
  | free k => exact hσ y hy k hon

/-- Positions in range are those of replacements in range. -/
theorem Carried.inRange_pull (h : Carried ρ e r) (hfit : ρ.Fits e.free)
    (hσ : r.free.InRange σ) : e.free.InRange (ρ.pull σ) :=
  Expr.inRange_pull hfit fun y hy k hon => hσ ⟨k, y.dim⟩ ((h.free _).mpr ⟨y, hy, hon, rfl⟩)

/-- A renaming that fits replaces an index without positions by one without positions. -/
theorem Carried.positive_iff (h : Carried ρ e r) (hfit : ρ.Fits e.free) :
    r.Positive ↔ e.Positive := by
  constructor
  · rintro ⟨hshape, hfree⟩
    refine ⟨h.shape ▸ hshape, fun y hy => ?_⟩
    -- an index that is fixed at a position in its range has one
    cases hon : ρ.onIndex (.free y.id) with
    | fixed p => exact Nat.zero_lt_of_lt (hfit.bounded y hy p hon)
    | free k => exact hfree ⟨k, y.dim⟩ ((h.free _).mpr ⟨y, hy, hon, rfl⟩)
  · rintro ⟨hshape, hfree⟩
    refine ⟨h.shape ▸ hshape, fun x hx => ?_⟩
    obtain ⟨y, hy, -, hdim⟩ := (h.free x).mp hx
    exact hdim ▸ hfree y hy

/-- Components of a node of algebra are made from components of its operands. -/
theorem inShape_operands {op : BinaryOp} (happly : op.apply a b = .ok (binary op a b))
    (hc : InShape c (binary op a b).shape) :
    InShape (c.take a.rank) a.shape ∧ InShape (c.take b.rank) b.shape := by
  by_cases hop : op = .product
  · subst hop
    rw [shape_binary, product_shape] at hc
    exact inShape_factors (mul_built happly).1 hc
  · obtain ⟨ha, hb, -⟩ := broadcasts hop happly
    exact ⟨ha.inShape hc, hb.inShape hc⟩

/-- Positions in range for a node are in range for its operands. -/
theorem inRange_operands {op : BinaryOp} (hsa : a.free.Sorted) (hsb : b.free.Sorted)
    (happly : op.apply a b = .ok (binary op a b)) (hσ : (binary op a b).free.InRange σ) :
    a.free.InRange σ ∧ b.free.InRange σ :=
  ⟨fun f hf => hσ f ((mem_free_binary hsa hsb happly).mpr (.inl hf)),
    fun f hf => hσ f ((mem_free_binary hsa hsb happly).mpr (.inr hf))⟩

/-- A renaming that fits a node of algebra fits its operands. -/
theorem fits_operands {op : BinaryOp} (hfit : ρ.Fits (binary op a b).free)
    (hca : Canonical a) (hcb : Canonical b) (happly : op.apply a b = .ok (binary op a b)) :
    ρ.Fits a.free ∧ ρ.Fits b.free :=
  ⟨hfit.mono fun _ hx => (mem_free_binary hca.sorted hcb.sorted happly).mpr (.inl hx),
    hfit.mono fun _ hx => (mem_free_binary hca.sorted hcb.sorted happly).mpr (.inr hx)⟩

/-! ## Components at other positions -/

/-- Sums of equal terms are equal. -/
theorem sumTerms_congr {term term' : Nat → Option (Expr R)} {n : Nat}
    (h : ∀ j < n, term j = term' j) : sumTerms term n = sumTerms term' n := by
  have hupto : ∀ {n : Nat}, (∀ j ≤ n, term j = term' j) → sumUpTo term n = sumUpTo term' n := by
    intro n h
    induction n with
    | zero => exact h 0 (Nat.le_refl 0)
    | succ n ih => rw [sumUpTo, sumUpTo, ih fun j hj => h j (by omega), h _ (Nat.le_refl _)]
  cases n with
  | zero => rfl
  | succ n => exact hupto fun j hj => h j (by omega)

/-- A chain whose indices are replaced has the leaves of the chain. -/
theorem leafComponent_renamed (hc : Canonical e) (hm : e.isModifiedTerminal)
    (hcarry : ρ.Carries e.free σ τ) :
    (e.mapIndices ρ.onIndex).leafComponent c σ = e.leafComponent c τ := by
  have hmap : (e.mapIndices ρ.onIndex).mapIndices σ.fix = e.mapIndices τ.fix := by
    rw [mapIndices_mapIndices]
    exact mapIndices_congr hc hm (fun i hi => congrArg Index.fixed (hcarry i hi)) fun p => rfl
  have hleaf : (e.mapIndices ρ.onIndex).leafAt c σ = e.leafAt c τ := by
    rw [leafAt, leafAt, hmap]
  have hzero : (e.mapIndices ρ.onIndex).isZero = e.isZero := by
    cases e <;> rfl
  rw [leafComponent, leafComponent, hleaf, hzero]

/-- A terminal's component depends on its free indices only. -/
theorem leafComponent_congr (hc : Canonical e) (hm : e.isModifiedTerminal)
    (h : ∀ i, e.free.has i → σ i = τ i) : e.leafComponent c σ = e.leafComponent c τ := by
  -- the renaming that replaces nothing
  have hid : Renaming.onIndex [] = id := funext fun j => by cases j <;> rfl
  have := leafComponent_renamed (ρ := []) (c := c) hc hm h
  rwa [hid, mapIndices_id] at this

/-- **Only the positions of free indices count.** -/
theorem component_congr (hc : Canonical e) (h : ∀ i, e.free.has i → σ i = τ i) :
    e.component c σ = e.component c τ := by
  induction hc generalizing c σ τ with
  | leaf ht => exact leafComponent_congr (.leaf ht) rfl h
  | listTensor => rfl
  | @binary op a b hca hcb happly iha ihb =>
    -- indices of an operand are indices of the node
    have hfree : ∀ i, a.free.has i ∨ b.free.has i → σ i = τ i := fun i hi => by
      refine h i (FreeIndices.has_iff.mpr ?_)
      rcases hi with hi | hi
      · exact (FreeIndices.has_iff.mp hi).imp fun d hd =>
          (mem_free_binary hca.sorted hcb.sorted happly).mpr (.inl hd)
      · exact (FreeIndices.has_iff.mp hi).imp fun d hd =>
          (mem_free_binary hca.sorted hcb.sorted happly).mpr (.inr hd)
    rw [component_binary, component_binary, binaryComponent, binaryComponent,
      iha fun i hi => hfree i (.inl hi), ihb fun i hi => hfree i (.inr hi)]
  | @unary op a hca happly ih =>
    cases hm : (unary op a).isModifiedTerminal with
    | true =>
      rw [component_chain hm, component_chain hm]
      exact leafComponent_congr (.unary hca happly) hm h
    | false =>
      rw [component, component, hm, if_neg Bool.false_ne_true, if_neg Bool.false_ne_true]
      -- where nothing is bound, the operand's indices are those of the node
      have hkept : op.bound = [] → ∀ {c}, a.component c σ = a.component c τ := fun hb c =>
        ih fun i hi => h i (has_of_operand happly hi (by simp [hb]))
      cases op with
      | math f => rw [unaryComponent, unaryComponent, hkept rfl]
      | abs => rw [unaryComponent, unaryComponent, hkept rfl]
      | indexSum i =>
        -- the index of the sum has the same position in both terms
        refine sumTerms_congr fun j _ => ih fun k hk => ?_
        by_cases hki : k = i
        · rw [hki, Env.bind_self, Env.bind_self]
        · rw [Env.bind_of_ne σ j hki, Env.bind_of_ne τ j hki]
          exact h k (has_of_operand happly hk fun hb => hki (List.mem_singleton.mp hb))
      | indexed is =>
        have hentries : is.map σ.resolve = is.map τ.resolve := by
          refine List.map_congr_left fun j hj => ?_
          cases j with
          | fixed p => rfl
          | free i => exact h i (has_of_entry happly hj)
        rw [unaryComponent, unaryComponent, hkept rfl, hentries]
      | componentTensor | restricted | grad | referenceGrad | spatialDerivative | averaged
        | labelled => rfl

/-! ## Expressions that follow -/

/-- The components of `r` are those of `e` at the positions that replacements stand for. -/
structure Follows (ρ : Renaming) (e r : Expr R) : Prop where
  carried : Carried ρ e r
  scalarizable : Scalarizable r
  component : ∀ c σ τ, InShape c e.shape → e.free.InRange τ → ρ.Carries e.free σ τ →
    r.component c σ = e.component c τ

/-- Where all components of an expression are built, so are those that follow. -/
theorem Determined.renamed (hd : e.Determined) (hfit : ρ.Fits e.free) (hcarried : Carried ρ e r)
    (hcomponent : ∀ c σ τ, InShape c e.shape → e.free.InRange τ → ρ.Carries e.free σ τ →
      r.component c σ = e.component c τ) : r.Determined := by
  intro c σ hc hσ
  rw [hcarried.shape] at hc
  have hτ := hcarried.inRange_pull hfit hσ
  rw [hcomponent c σ _ hc hτ (ρ.carries_pull e.free σ)]
  exact hd c _ hc hτ

/-- An expression of which no index is replaced follows itself. -/
theorem follows_self (hc : Canonical e) (hs : Scalarizable e) (ht : ρ.touches e.free = false) :
    Follows ρ e e where
  carried := carried_self hc ht
  scalarizable := hs
  component c σ τ _ _ hcarry := by
    refine component_congr hc fun i hi => ?_
    have hon := hcarry i hi
    rwa [Renaming.onIndex_of_not_touches ht hi] at hon

/-- A zero renamed is a zero. -/
theorem follows_zero (hcarried : Carried ρ e r) (hz : e.isZero) (hz' : r.isZero) :
    Follows ρ e r where
  carried := hcarried
  scalarizable := by
    obtain ⟨t, rfl⟩ := leaf_of_isConstantValue (isConstantValue_of_isZero hz')
    exact .terminal rfl fun c σ _ _ => ⟨_, component_zero hz'⟩
  component c σ τ _ _ _ := by rw [component_zero hz, component_zero hz']

/-- A chain renamed has the components at the positions that its indices are carried to. -/
theorem follows_chain (hc : Canonical e) (hm : e.isModifiedTerminal) (hz : e.isZero = false)
    (hd : e.Determined) (hfit : ρ.Fits e.free) : Follows ρ e (e.mapIndices ρ.onIndex) := by
  have hcarried := (exists_rename_chain hc hm hz hfit).2
  have hm' : (e.mapIndices ρ.onIndex).isModifiedTerminal := by
    rw [isModifiedTerminal_mapIndices, hm]
  have hcomponent : ∀ c σ τ, InShape c e.shape → e.free.InRange τ → ρ.Carries e.free σ τ →
      (e.mapIndices ρ.onIndex).component c σ = e.component c τ := fun c σ τ _ _ hcarry => by
    rw [component_chain hm, component_chain hm']
    exact leafComponent_renamed hc hm hcarry
  exact ⟨hcarried, .terminal hm' (hd.renamed hfit hcarried hcomponent), hcomponent⟩

/-! ## Operators over what follows -/

/-- The node of an operator that binds nothing, over an operand that follows. -/
theorem unaryComponent_renamed {op : UnaryOp} (hop : op.ByComponents) (hbound : op.bound = [])
    (happly : op.apply a = .ok (unary op a)) (ha : Follows ρ a a')
    (hc : InShape c (unary op a).shape) (hτ : (unary op a).free.InRange τ)
    (hcarry : ρ.Carries (unary op a).free σ τ) :
    unaryComponent (ρ.onOp op) a' a'.component c σ = unaryComponent op a a.component c τ := by
  -- what is in range and carried for the node is so for its operand
  have hτa : a.free.InRange τ := fun f hf =>
    hτ f ((mem_free_unary happly).mpr (.inl ⟨hf, by simp [hbound]⟩))
  have hcarrya : ρ.Carries a.free σ τ := fun i hi =>
    hcarry i (has_of_operand happly hi (by simp [hbound]))
  rw [shape_unary] at hc
  cases op with
  | math f =>
    have hc : InShape c a.shape := (math_built happly).1 ▸ hc
    exact congrArg (Option.bind · _) (ha.component c σ τ hc hτa hcarrya)
  | abs => exact congrArg (Option.bind · _) (ha.component c σ τ hc hτa hcarrya)
  | indexed is =>
    obtain ⟨hl, hok⟩ := index_ok happly
    have hentries : (is.map ρ.onIndex).map σ.resolve = is.map τ.resolve :=
      entries_carried happly hcarry
    rw [Renaming.onOp, unaryComponent, unaryComponent, hentries]
    exact ha.component _ σ τ (hok.inShape hl hτ) hτa hcarrya
  | indexSum => cases hbound
  | componentTensor | restricted | grad | referenceGrad | spatialDerivative | averaged
    | labelled => cases hop

/-- What is built over an operand that follows, if its components are those of the node. -/
theorem follows_unary {op : UnaryOp} (op' : UnaryOp) (hop : op.ByComponents)
    (hop' : op'.ByComponents) (happly : op.apply a = .ok (unary op a))
    (hd : (unary op a).Determined) (hfit : ρ.Fits (unary op a).free) (hca' : Canonical a')
    (hsa' : Scalarizable a') (hr : op'.apply a' = .ok r)
    (hcarried : Carried ρ (unary op a) r)
    (hcomponent : ∀ c σ τ, InShape c (unary op a).shape → (unary op a).free.InRange τ →
      ρ.Carries (unary op a).free σ τ →
        unaryComponent op' a' a'.component c σ = unaryComponent op a a.component c τ) :
    Follows ρ (unary op a) r := by
  have hcomponent : ∀ c σ τ, InShape c (unary op a).shape → (unary op a).free.InRange τ →
      ρ.Carries (unary op a).free σ τ → r.component c σ = (unary op a).component c τ :=
    fun c σ τ hc hτ hcarry => by
      obtain ⟨s, hs⟩ := hd c τ hc hτ
      rw [hs]
      rw [component_unary happly hop hc, ← hcomponent c σ τ hc hτ hcarry] at hs
      exact component_apply hca' hop' hr (hcarried.shape ▸ hc) hs
  have hdr := hd.renamed hfit hcarried hcomponent
  refine ⟨hcarried, ?_, hcomponent⟩
  -- the operator has returned its operand, a constant or its node
  rcases unary_outcome hr with rfl | hconst | rfl
  · exact hsa'
  · obtain ⟨t, rfl⟩ := leaf_of_isConstantValue hconst
    exact .terminal rfl hdr
  · cases hm : (unary op' a').isModifiedTerminal with
    | true => exact .terminal hm hdr
    | false => exact .unary hop' hm hsa' hdr

/-- **An operator that binds nothing follows, over an operand that follows.** -/
theorem follows_onOp {op : UnaryOp} (hop : op.ByComponents) (hbound : op.bound = [])
    (hca : Canonical a) (happly : op.apply a = .ok (unary op a)) (hd : (unary op a).Determined)
    (hfit : ρ.Fits (unary op a).free) (ha : Follows ρ a a')
    (hr : (ρ.onOp op).apply a' = .ok r) : Follows ρ (unary op a) r := by
  have hav : ρ.Avoids a.free op.bound := hbound ▸ Renaming.avoids_nil
  have hcarried : Carried (ρ.without op.bound) a a' := by
    rw [hbound, ρ.without_nil]
    exact ha.carried
  exact follows_unary (ρ.onOp op) hop (hop.onOp ρ) happly hd hfit ha.carried.canonical
    ha.scalarizable hr (carried_unary hca happly (.inl hop.computes) hav hcarried hr)
    fun c σ τ hc hτ hcarry => unaryComponent_renamed hop hbound happly ha hc hτ hcarry

/-- **A sum follows**, over an operand that follows where the indices of both sums have the
same position. -/
theorem follows_sumOver {ρ' : Renaming} {i i' : IndexId} (hca : Canonical a)
    (happly : UnaryOp.apply (.indexSum i) a = .ok (unary (.indexSum i) a))
    (hd : (unary (.indexSum i) a).Determined) (hfit : ρ.Fits (unary (.indexSum i) a).free)
    (ha : Follows ρ' a a') (hdim : a'.free.dim? i' = a.free.dim? i)
    (hcarry : ∀ σ τ, ρ.Carries (unary (.indexSum i) a).free σ τ →
      ∀ j, ρ'.Carries a.free (σ.bind [i'] [j]) (τ.bind [i] [j]))
    (hr : a'.sumOver i' = .ok r) (hcarried : Carried ρ (unary (.indexSum i) a) r) :
    Follows ρ (unary (.indexSum i) a) r := by
  obtain ⟨d, hd'⟩ := FreeIndices.has_iff.mp (sumOver_built happly).1
  have hdim' := hca.sorted.dim?_eq_some.mpr hd'
  -- term by term, with the summed index bound on both sides
  refine follows_unary (.indexSum i') trivial trivial happly hd hfit ha.carried.canonical
    ha.scalarizable hr hcarried fun c σ τ hc hτ hστ => ?_
  rw [unaryComponent, unaryComponent, hdim, hdim', Option.getD_some]
  rw [shape_unary] at hc
  rw [free_unary] at hτ
  exact sumTerms_congr fun j hj =>
    ha.component c _ _ hc (inRange_bind hca.sorted hτ hdim' hj) (hcarry σ τ hστ j)

/-- What is built over two operands that follow, if it has the components of the node. -/
theorem follows_binary {op : BinaryOp} (hca : Canonical a) (hcb : Canonical b)
    (happly : op.apply a b = .ok (binary op a b)) (hd : (binary op a b).Determined)
    (hpos : op ≠ .product → (a.Positive ↔ b.Positive)) (hfit : ρ.Fits (binary op a b).free)
    (ha : Follows ρ a a') (hb : Follows ρ b b') (hr : op.apply a' b' = .ok r)
    (hfold : ∀ c σ s, InShape c r.shape → a'.free.InRange σ → b'.free.InRange σ →
      InShape (c.take a'.rank) a'.shape → InShape (c.take b'.rank) b'.shape →
      binaryComponent op a' b' a'.component b'.component c σ = some s →
        r.component c σ = some s) : Follows ρ (binary op a b) r := by
  -- what the renaming does to the node, it does to both operands
  obtain ⟨hfita, hfitb⟩ := fits_operands hfit hca hcb happly
  have hcarried := carried_binary hca.sorted hcb.sorted happly ha.carried hb.carried hr
  have hranka : a'.rank = a.rank := congrArg List.length ha.carried.shape
  have hrankb : b'.rank = b.rank := congrArg List.length hb.carried.shape
  have hcomponent : ∀ c σ τ, InShape c (binary op a b).shape → (binary op a b).free.InRange τ →
      ρ.Carries (binary op a b).free σ τ → r.component c σ = (binary op a b).component c τ := by
    intro c σ τ hc hτ hcarry
    obtain ⟨s, hs⟩ := hd c τ hc hτ
    obtain ⟨x, y, hx, hy, hxy⟩ := binaryComponent_eq_some.mp hs
    obtain ⟨hcsa, hcsb⟩ := inShape_operands happly hc
    obtain ⟨hτa, hτb⟩ := inRange_operands hca.sorted hcb.sorted happly hτ
    obtain ⟨hcarrya, hcarryb⟩ := carries_operands hca.sorted hcb.sorted happly hcarry
    -- the components of the operands are the same, and so is what they fold to
    rw [hs]
    refine hfold c σ s (hcarried.shape ▸ hc) (ha.carried.inRange hτa hcarrya)
      (hb.carried.inRange hτb hcarryb) ?_ ?_ ?_
    · rwa [hranka, ha.carried.shape]
    · rwa [hrankb, hb.carried.shape]
    · refine binaryComponent_eq_some.mpr ⟨x, y, ?_, ?_, hxy⟩
      · rw [hranka, ha.component _ σ τ hcsa hτa hcarrya, hx]
      · rw [hrankb, hb.component _ σ τ hcsb hτb hcarryb, hy]
  have hdr := hd.renamed hfit hcarried hcomponent
  refine ⟨hcarried, ?_, hcomponent⟩
  -- the operator has returned one of its operands, a constant or its node
  rcases binary_outcome hr with rfl | rfl | hconst | rfl
  · exact ha.scalarizable
  · exact hb.scalarizable
  · obtain ⟨t, rfl⟩ := leaf_of_isConstantValue hconst
    exact .terminal rfl hdr
  · refine .binary ha.scalarizable hb.scalarizable (fun hop => ?_) hdr
    rw [ha.carried.positive_iff hfita, hb.carried.positive_iff hfitb]
    exact hpos hop

end Expr

end WeakForm
