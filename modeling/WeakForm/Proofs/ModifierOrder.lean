import WeakForm.Proofs.FixedPoints
import WeakForm.Proofs.Peeling

/-!
# The order of modifiers and what they describe

Sorting moves a modifier outwards past those of lower layers. Peeling two modifiers of different
layers gives the same in both orders, as long as it succeeds in the one in which the lower layer
stands outside: an average and a restriction touch nothing else, and an indexing beneath a
derivative is not peeled at all. So the sorted modifiers describe what the given ones do.

* `Peels`, `peel_chain` — the modifiers of a chain, innermost first;
* `Peeled.swap` — two modifiers of different layers;
* `peels_mergeSort` — the sorted modifiers;
* `analyse_balance` — the descriptor of the balanced chain.
-/

namespace WeakForm

/-! ## The modifiers of a chain -/

namespace Modifiers

variable {m m' m₁ : Modifiers} {f g op : UnaryOp} {ops inner outer : List UnaryOp}

/-- Modifiers, innermost first, are peeled from the last to the first. -/
inductive Peels (m : Modifiers) : List UnaryOp → Modifiers → Prop
  | nil : Peels m [] m
  | cons {ops : List UnaryOp} {op : UnaryOp} {m₁ m' : Modifiers} (hops : Peels m ops m₁)
      (hop : Peeled m₁ op m') : Peels m (op :: ops) m'

/-- The outermost modifier is peeled first. -/
theorem peels_concat : Peels m (ops ++ [op]) m' ↔ ∃ m₁, Peeled m op m₁ ∧ Peels m₁ ops m' := by
  induction ops generalizing m' with
  | nil =>
    constructor
    -- the only modifier is peeled first
    · rintro (_ | ⟨⟨⟩, hop⟩)
      exact ⟨m', hop, .nil⟩
    · rintro ⟨m₁, hop, ⟨⟩⟩
      exact .cons .nil hop
  | cons f ops ih =>
    constructor
    -- the outermost modifier is peeled last in both lists
    · rintro (_ | ⟨hops, hf⟩)
      obtain ⟨m₁, hop, hrest⟩ := ih.mp hops
      exact ⟨m₁, hop, .cons hrest hf⟩
    · rintro ⟨m₁, hop, _ | ⟨hrest, hf⟩⟩
      exact .cons (ih.mpr ⟨m₁, hop, hrest⟩) hf

/-! ## Sorting -/

/-- **Two modifiers**: where `g` stands outside `f`, though its layer is the lower one, both
may change places. -/
theorem Peeled.swap (hlayer : g.layerRank < f.layerRank) (hg : Peeled m g m₁)
    (hf : Peeled m₁ f m') : ∃ m₂, Peeled m f m₂ ∧ Peeled m₂ g m' := by
  cases hf with
  | grad | referenceGrad | spatialDerivative =>
    -- nothing is below a derivative
    exact absurd hlayer (Nat.not_lt_zero _)
  | averaged havg =>
    cases hg with
    | grad hc => exact ⟨_, .averaged havg, .grad hc⟩
    | referenceGrad hc => exact ⟨_, .averaged havg, .referenceGrad hc⟩
    | spatialDerivative his => exact ⟨_, .averaged havg, .spatialDerivative his⟩
    | averaged | restricted | indexed =>
      simp [UnaryOp.layerRank, UnaryOp.layer?, Layer.rank] at hlayer
  | restricted hside =>
    cases hg with
    | grad hc => exact ⟨_, .restricted hside, .grad hc⟩
    | referenceGrad hc => exact ⟨_, .restricted hside, .referenceGrad hc⟩
    | spatialDerivative his => exact ⟨_, .restricted hside, .spatialDerivative his⟩
    | averaged havg => exact ⟨_, .restricted hside, .averaged havg⟩
    | restricted | indexed => simp [UnaryOp.layerRank, UnaryOp.layer?, Layer.rank] at hlayer
  | indexed hc hp hr his =>
    cases hg with
    | grad | referenceGrad =>
      -- a gradient has used a component, which is then there already
      cases hc
    | spatialDerivative hds =>
      -- nor is there a direction, so the derivative is one in no direction
      obtain ⟨rfl, hp⟩ := List.append_eq_nil_iff.mp hp
      exact ⟨_, .indexed hc hp hr his, .spatialDerivative hds⟩
    | averaged havg => exact ⟨_, .indexed hc hp hr his, .averaged havg⟩
    | restricted hside => exact ⟨_, .indexed hc hp hr his, .restricted hside⟩
    | indexed => simp [UnaryOp.layerRank, UnaryOp.layer?, Layer.rank] at hlayer

/-- A modifier moves outwards past modifiers of lower layers. -/
theorem peels_outwards (hlower : ∀ g ∈ inner, g.layerRank < f.layerRank)
    (h : Peels m (f :: (inner ++ outer)) m') : Peels m (inner ++ f :: outer) m' := by
  induction inner generalizing m' with
  | nil => exact h
  | cons g inner ih =>
    obtain _ | ⟨hrest, hf⟩ := h
    obtain _ | ⟨hrest, hg⟩ := hrest
    -- first past the one that stands next to it
    obtain ⟨m₂, hf, hg⟩ := hg.swap (hlower g List.mem_cons_self) hf
    have hinner := ih (fun k hk => hlower k (List.mem_cons_of_mem _ hk)) (.cons hrest hf)
    exact .cons hinner hg

/-- **The sorted modifiers describe what the given ones do.** -/
theorem peels_mergeSort (hmod : ∀ op ∈ ops, op.isModifier) (h : Peels m ops m') :
    Peels m (ops.mergeSort UnaryOp.layerLE) m' := by
  rw [UnaryOp.mergeSort_layerLE hmod]
  clear hmod
  induction ops generalizing m' with
  | nil =>
    rw [List.mergeSort_nil]
    exact h
  | cons f ops ih =>
    obtain _ | ⟨hops, hf⟩ := h
    -- the sort puts the innermost modifier behind those of lower layers
    obtain ⟨inner, outer, hsorted, hrest, hlower⟩ :=
      List.mergeSort_cons UnaryOp.inside_trans UnaryOp.inside_total f ops
    rw [hsorted]
    refine peels_outwards (fun g hg => ?_) (.cons (hrest ▸ ih hops) hf)
    simpa [UnaryOp.inside] using hlower g hg

end Modifiers

/-! ## The balanced chain -/

namespace Expr

variable {R : Type} {m m' : Modifiers} {ops : List UnaryOp} {t t' : Terminal R} {e r : Expr R}

/-- **The modifiers of a chain are peeled one by one.** -/
theorem peel_chain (h : ChainOf t ops e) :
    e.peel m = .ok (some (m', t')) ↔ t' = t ∧ m.Peels ops m' := by
  induction h generalizing m with
  | terminal =>
    rw [peel]
    constructor
    · rintro ⟨⟩
      exact ⟨rfl, .nil⟩
    · rintro ⟨rfl, ⟨⟩⟩
      rfl
  | wrap _ _ ih =>
    rw [peel_unary, Modifiers.peels_concat]
    -- the outermost modifier is peeled first, and then the chain below
    constructor
    · rintro ⟨m₁, hop, ha⟩
      obtain ⟨rfl, hops⟩ := ih.mp ha
      exact ⟨rfl, m₁, hop, hops⟩
    · rintro ⟨rfl, m₁, hop, hops⟩
      exact ⟨m₁, hop, ih.mpr ⟨rfl, hops⟩⟩

variable [Scalar R]

/-- **The balanced chain has the descriptor of the chain.** -/
theorem analyse_balance {d : ModifiedTerminal R} (hcan : Canonical e) (h : balance e = .ok r)
    (hd : e.analyse = .ok (some d)) :
    ∃ d', r.analyse = .ok (some d') ∧ d'.toDescriptor = d.toDescriptor := by
  -- an expression that is kept has its descriptor
  rcases balance_cases hcan with heq | ⟨t, ops, hs⟩
  · rw [heq] at h
    cases h
    exact ⟨d, hd, rfl⟩
  · obtain ⟨hscalar, m, hpeel, hframes, hlength, hd⟩ := analyse_eq_some.mp hd
    have hattributes := balance_chain hcan h
    rw [hs.balanced] at h
    have hchain : ChainOf t (ops.mergeSort UnaryOp.layerLE) r :=
      chainOf_applyAll hs.varying hs.wraps_sorted h
    -- the terminal beneath is the same
    obtain ⟨hterminal, hpeels⟩ := (peel_chain hs.chain).mp hpeel
    -- Peeling counts the layers of each kind, and sorting the chain changes none of the counts.
    have hsorted := Modifiers.peels_mergeSort hs.chain.isModifier hpeels
    refine ⟨{ d with expr := r }, analyse_eq_some.mpr ⟨?_, m, ?_, hframes, hlength, ?_⟩, rfl⟩
    -- balancing keeps shape and free indices
    · rw [isScalar, hattributes.shape, hattributes.free]
      exact hscalar
    · exact (peel_chain hchain).mpr ⟨hterminal, hsorted⟩
    · rw [hd]

end Expr

end WeakForm
