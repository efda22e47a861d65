import WeakForm.Proofs.Layout
import WeakForm.Proofs.Peeling
import WeakForm.Proofs.Typing

/-!
# Descriptors are in range

Tables are read at the component and the directions of a descriptor, and nothing checks them
there. The entries that become a component and directions were checked against the shape and
the dimensions of the operand that they index or differentiate; a gradient has added an axis to
that shape, and its direction is an entry of an index further outside. What is peeled off so far
is in range of what is left, modifier by modifier, and in the end of the terminal.

* `Modifiers.Within`, `Within.peeled`, `Within.peel` — what is peeled is in range of what is left;
* `derivativeCount` — the derivatives that are taken in an expression;
* `Descriptor.InRange`, `descriptor_inRange` — descriptors are in range of their terminals.
-/

namespace WeakForm

/-! ## Components -/

/-- Positions with one entry more lie on axes with one axis more. -/
theorem inShape_concat {c dims : List Nat} {p d : Nat} :
    InShape (c ++ [p]) (dims ++ [d]) ↔ InShape c dims ∧ p < d := by
  rw [InShape, ← List.forall₂_reverse_iff, List.reverse_append, List.reverse_append]
  simp [InShape, and_comm]

/-- Fixed indices that lie on their axes are a component. -/
theorem inShape_of_fixed {c dims : List Nat} (hl : c.length = dims.length)
    (hbound : ∀ p d, (.fixed p, d) ∈ (c.map Index.fixed).zip dims → p < d) : InShape c dims := by
  refine List.forall₂_iff_zip.mpr ⟨hl, fun {p d} hmem => hbound p d ?_⟩
  rw [List.zip_map_left]
  exact List.mem_map.mpr ⟨(p, d), hmem, rfl⟩

/-! ## Domains -/

@[simp] theorem UnaryOp.gdim_signature (op : UnaryOp) (s : Signature) :
    (op.signature s).gdim = s.gdim :=
  rfl

@[simp] theorem UnaryOp.tdim_signature (op : UnaryOp) (s : Signature) :
    (op.signature s).tdim = s.tdim :=
  rfl

@[simp] theorem UnaryOp.shape_signature (op : UnaryOp) (s : Signature) :
    (op.signature s).shape = op.shape s :=
  rfl

/-- What is below a dimension is so for a domain. -/
theorem exists_domain_of_lt {domain? : Option Domain} {f : Domain → Nat} {p : Nat}
    (h : p < (domain?.map f).getD 0) : ∃ d, domain? = some d ∧ p < f d := by
  cases domain? with
  | none => exact absurd h (Nat.not_lt_zero p)
  | some d => exact ⟨d, rfl, h⟩

/-! ## Derivatives -/

/-- The number of derivatives that an operator takes. -/
def UnaryOp.derivativeCount : UnaryOp → Nat
  | grad | referenceGrad => 1
  | spatialDerivative is => is.length
  | _ => 0

/-- The number of derivatives that the modifiers of an expression take. -/
def Expr.derivativeCount {R : Type} : Expr R → Nat
  | .unary op a => op.derivativeCount + a.derivativeCount
  | _ => 0

/-- The number of derivatives that are peeled. -/
def Modifiers.derivatives (m : Modifiers) : Nat :=
  m.physical.length + m.reference.length

/-- One direction for each derivative. -/
theorem Modifiers.Peeled.derivatives_eq {m m' : Modifiers} {op : UnaryOp} (h : Peeled m op m') :
    m'.derivatives = m.derivatives + op.derivativeCount := by
  cases h with
  | indexed | restricted | averaged => rfl
  | grad | referenceGrad =>
    simp only [derivatives, UnaryOp.derivativeCount, List.length_cons]
    omega
  | spatialDerivative his =>
    simp only [derivatives, UnaryOp.derivativeCount, his, List.length_append, List.length_map]
    omega

/-! ## What is peeled is in range of what is left -/

namespace Modifiers

/-- Component and directions that an operand with a signature has. -/
structure Within (m : Modifiers) (s : Signature) : Prop where
  component : ∀ c, m.component? = some c → InShape c s.shape
  physical : ∀ p ∈ m.physical, p < s.gdim
  reference : ∀ p ∈ m.reference, p < s.tdim

/-- Before anything is peeled. -/
theorem within_nothing (s : Signature) : Within {} s where
  component _ h := nomatch h
  physical _ h := nomatch h
  reference _ h := nomatch h

variable {R : Type} [Scalar R] {m m' : Modifiers} {op : UnaryOp} {a e : Expr R} {t : Terminal R}

/-- **One modifier**: what it adds to those outside it is in range of its operand. -/
theorem Within.peeled (hcan : Expr.Canonical (.unary op a))
    (h : m.Within (Expr.unary op a).signature) (hp : Peeled m op m') : m'.Within a.signature := by
  rw [Expr.signature_unary] at h
  obtain ⟨hcomponent, hphysical, hreference⟩ := h
  -- directions that are peeled before were checked against the same domain
  rw [UnaryOp.gdim_signature] at hphysical
  rw [UnaryOp.tdim_signature] at hreference
  rw [UnaryOp.shape_signature] at hcomponent
  cases hp with
  | indexed hc hp hr his =>
    -- the indices were checked against the axes of the operand
    obtain ⟨hl, hbound⟩ := hcan.consistent.positions _ a rfl
    refine ⟨fun c heq => ?_, hphysical, hreference⟩
    obtain rfl := Option.some.inj heq
    rw [his] at hl hbound
    rw [List.length_map] at hl
    exact inShape_of_fixed hl hbound
  | grad hc =>
    -- the last entry of the component is on the axis that the gradient added
    obtain ⟨hin, hlt⟩ := inShape_concat.mp (hcomponent _ hc)
    refine ⟨fun c heq => ?_, ?_, hreference⟩
    · obtain rfl := Option.some.inj heq
      exact hin
    · intro q hq
      rcases List.mem_cons.mp hq with rfl | hq
      · exact hlt
      · exact hphysical q hq
  | referenceGrad hc =>
    obtain ⟨hin, hlt⟩ := inShape_concat.mp (hcomponent _ hc)
    refine ⟨fun c heq => ?_, hphysical, ?_⟩
    · obtain rfl := Option.some.inj heq
      exact hin
    · intro q hq
      rcases List.mem_cons.mp hq with rfl | hq
      · exact hlt
      · exact hreference q hq
  | spatialDerivative his =>
    obtain ⟨d, hd, hbound⟩ := hcan.consistent.directions _ a rfl
    refine ⟨hcomponent, fun q hq => ?_, hreference⟩
    rcases List.mem_append.mp hq with hq | hq
    · have hgdim : a.signature.gdim = d.gdim := by
        show (a.domain?.map (·.gdim)).getD 0 = d.gdim
        rw [hd]
        rfl
      rw [hgdim]
      exact hbound q (his ▸ List.mem_map_of_mem hq)
    · exact hphysical q hq
  | restricted | averaged => exact ⟨hcomponent, hphysical, hreference⟩

/-- **All modifiers**: what is peeled off is in range of the terminal, and no derivative is
lost. -/
theorem Within.peel (hcan : Expr.Canonical e) (h : m.Within e.signature)
    (hp : e.peel m = .ok (some (m', t))) :
    m'.Within t.signature ∧ m'.derivatives = m.derivatives + e.derivativeCount := by
  induction e generalizing m with
  | leaf t' =>
    cases hp
    rw [Expr.signature_leaf] at h
    exact ⟨h, rfl⟩
  | unary op a ih =>
    obtain ⟨m₁, hop, hp⟩ := Expr.peel_unary.mp hp
    cases hcan with
    | unary hca happly =>
      -- the operand's descriptor is what is left when the modifier is taken off
      obtain ⟨hwithin, hcount⟩ := ih hca (h.peeled (.unary hca happly) hop) hp
      refine ⟨hwithin, ?_⟩
      rw [hcount, hop.derivatives_eq, Expr.derivativeCount, Nat.add_assoc]
  | binary | listTensor => cases hp

end Modifiers

/-! ## Descriptors -/

/-- Component and directions of a descriptor are those of its terminal and its domain. -/
structure Descriptor.InRange {R : Type} (d : Descriptor R) : Prop where
  component : InShape d.component d.terminal.shape
  place : d.flatComponent < shapeSize d.terminal.shape
  /-- The place of the component determines it. -/
  placed : ∀ c, InShape c d.terminal.shape → flatten c d.terminal.shape = d.flatComponent →
    c = d.component
  physical : ∀ p ∈ d.physical, ∃ domain, d.terminal.domain? = some domain ∧ p < domain.gdim
  reference : ∀ p ∈ d.reference, ∃ domain, d.terminal.domain? = some domain ∧ p < domain.tdim
  frames : d.physical = [] ∨ d.reference = []

namespace Expr

variable {R : Type} [Scalar R] [DecidableEq R] {e : Expr R}

/-- **Descriptors are in range**, and have as many directions as derivatives are taken. -/
theorem descriptor_inRange {d : ModifiedTerminal R} (he : Obtained e)
    (h : e.analyse = .ok (some d)) :
    d.InRange ∧ d.physical.length + d.reference.length = e.derivativeCount := by
  obtain ⟨-, m, hpeel, hframes, hlength, hd⟩ := analyse_eq_some.mp h
  obtain ⟨hwithin, hcount⟩ := (Modifiers.within_nothing _).peel (obtained_canonical he) hpeel
  -- where there is no component, the terminal has no axes
  have hcomponent : InShape (m.component?.getD []) d.terminal.shape := by
    cases hc : m.component? with
    | some c => exact hwithin.component c hc
    | none =>
      rw [hc] at hlength
      rw [List.eq_nil_of_length_eq_zero hlength.symm]
      exact inShape_nil
  have hcount : m.physical.length + m.reference.length = e.derivativeCount := by
    simpa [Modifiers.derivatives] using hcount
  rw [hd]
  refine ⟨?_, hcount⟩
  exact {
    component := hcomponent
    place := flatten_lt hcomponent
    placed := fun c hc hplace => eq_of_flatten_eq hc hcomponent hplace
    physical := fun p hp => exists_domain_of_lt (hwithin.physical p hp)
    reference := fun p hp => exists_domain_of_lt (hwithin.reference p hp)
    frames := hframes }

/-! ## A chain of modifiers -/

omit [DecidableEq R] in
/-- Modifiers of what is built are built. -/
theorem built_applyAll {ops : List UnaryOp} {a r : Expr R} (ha : Built a)
    (h : applyAll ops a = .ok r) : Built r := by
  induction ops generalizing a with
  | nil =>
    cases h
    exact ha
  | cons op ops ih =>
    obtain ⟨b, hb, hr⟩ := bind_eq_ok.mp h
    exact ih (.unary ha hb) hr

namespace AveragedSlope

/-- A vector field of linear elements on a triangle. -/
def field : Expr ℚ :=
  coefficient ⟨0, ⟨1, 1, [2]⟩, .ofCell .triangle 0⟩

/-- Two derivatives with a restriction between them, an average and a component. -/
def modifiers : List UnaryOp :=
  [.spatialDerivative [.fixed 1], .restricted .positive, .grad, .averaged .cell,
    .indexed [.fixed 1, .fixed 0]]

/-- The field under the modifiers. -/
def chain : Expr ℚ :=
  unary (.indexed [.fixed 1, .fixed 0]) (unary (.averaged .cell) (unary .grad
    (unary (.restricted .positive) (unary (.spatialDerivative [.fixed 1]) field))))

def descriptor : ModifiedTerminal ℚ where
  terminal := .coefficient ⟨0, ⟨1, 1, [2]⟩, .ofCell .triangle 0⟩
  physical := [1, 0]
  reference := []
  component := [1]
  restriction := some .positive
  averaged := some .cell
  expr := chain

theorem built_chain : Built chain := by
  have hchain : applyAll modifiers field = .ok chain := by cbv
  exact built_applyAll (.coefficient _) hchain

theorem analyse_chain : chain.analyse = .ok (some descriptor) := by
  cbv

end AveragedSlope

/-- The descriptor of an averaged slope is in range. -/
theorem descriptor_inRange_chain :
    Obtained AveragedSlope.chain ∧
    AveragedSlope.chain.analyse = .ok (some AveragedSlope.descriptor) ∧
    AveragedSlope.descriptor.InRange ∧
    AveragedSlope.descriptor.physical.length + AveragedSlope.descriptor.reference.length =
      AveragedSlope.chain.derivativeCount :=
  ⟨AveragedSlope.built_chain.obtained, AveragedSlope.analyse_chain,
    descriptor_inRange AveragedSlope.built_chain.obtained AveragedSlope.analyse_chain⟩

end Expr

end WeakForm
