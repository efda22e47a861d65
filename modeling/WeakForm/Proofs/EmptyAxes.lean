import WeakForm.Proofs.FixedComponents
import WeakForm.Proofs.Rebuilding
import WeakForm.Proofs.Typing

/-!
# Axes without positions

The facets of an interval are points, so a coordinate on them has an axis without positions. An
expression over such an axis has no components, and its list of components is empty. Two
operators do not expect that. A sum over an index starts with its first term, where there may be
none; and the components of a base are paired with the one of the exponent, which is one too many.
Apart from these, and from quotients, scalarization finds everything where it looks for it: it
ends with a list of components, or with an error about a node that graphs do not have.

* `Populated` — sums have terms, and bases have components;
* `determined_unary`, `determined_binary` — operators that build all of their components;
* `scalarize_error`, `ofTargets_error` — the errors of scalarization;
* `Scalarizable.populated` — what is scalarized is populated;
* `ofTargets_populated` — the graph of expressions without quotients.
-/

namespace WeakForm

open WeakForm.Expr

variable {R : Type}

/-- The errors of scalarization: about the modifiers of a chain, about a node that graphs do not
have, and about an absolute value without a literal. -/
inductive Error.OfScalarization (e : Expr R) : Error R → Prop where
  | modifiers (fault : ModifierFault) (a : Expr R) : OfScalarization e (.modifiers fault a)
  | unexpectedNode (a : Expr R) : OfScalarization e (.unexpectedNode a)
  | overflow {a : Expr R} (h : Subexpression (unary .abs a) e) :
      OfScalarization e (.breach .overflow)

/-- What goes wrong in an operand goes wrong in the node. -/
theorem Error.OfScalarization.operand {a e : Expr R} {err : Error R} (h : err.OfScalarization a)
    (ha : a ∈ e.operands) : err.OfScalarization e := by
  cases h with
  | modifiers fault b => exact .modifiers fault b
  | unexpectedNode b => exact .unexpectedNode b
  | overflow h => exact .overflow (.operand ha h)

namespace Expr

/-- There are no quotients. -/
def DivisionFree (e : Expr R) : Prop :=
  ∀ a b, ¬Subexpression (binary .division a b) e

/-- Sums that have components have terms, and bases have components. -/
structure Populated (e : Expr R) : Prop where
  sums : ∀ i a, Subexpression (unary (.indexSum i) a) e →
    (unary (.indexSum i) a).Positive → a.Positive
  bases : ∀ a b, Subexpression (binary .power a b) e → a.Positive

variable {a b e : Expr R} {err : Error R}

theorem DivisionFree.operand (h : e.DivisionFree) (ha : a ∈ e.operands) : a.DivisionFree :=
  fun x y hs => h x y (.operand ha hs)

theorem Populated.operand (h : e.Populated) (ha : a ∈ e.operands) : a.Populated :=
  ⟨fun i x hs => h.sums i x (.operand ha hs), fun x y hs => h.bases x y (.operand ha hs)⟩

/-- A node is populated as soon as its operands are, and its own axes have entries. -/
theorem populated_of_operands
    (hsum : ∀ i a, e = unary (.indexSum i) a → e.Positive → a.Positive)
    (hbase : ∀ a b, e = binary .power a b → a.Positive) (h : ∀ a ∈ e.operands, a.Populated) :
    e.Populated where
  sums i a hs := by
    cases hs with
    | refl => exact hsum i a rfl
    | operand hb hs => exact (h _ hb).sums i a hs
  bases a b hs := by
    cases hs with
    | refl => exact hbase a b rfl
    | operand hb hs => exact (h _ hb).bases a b hs

/-- Every axis of a chain is one of its terminal. -/
theorem populated_of_isModifiedTerminal (hm : e.isModifiedTerminal) : e.Populated := by
  induction e with
  -- a terminal has neither operands nor sums
  | leaf t =>
    refine populated_of_operands (fun i a h => ?_) (fun a b h => ?_) fun a ha => ?_
    · cases h
    · cases h
    · cases ha
  | unary op a ih =>
    rw [isModifiedTerminal, Bool.and_eq_true] at hm
    refine populated_of_operands (fun i b h => ?_) (fun b c h => ?_) fun b hb => ?_
    · -- a sum is no modifier
      cases h
      cases hm.1
    · cases h
    · exact List.mem_singleton.mp hb ▸ ih hm.2
  | binary | listTensor => cases hm

/-- An analysis that fails has found modifiers in the wrong order. -/
theorem analyse_error (h : e.analyse = .error err) : ∃ fault, err = .modifiers fault e := by
  unfold analyse at h
  split at h
  · cases h
  · next fault _ =>
    cases h
    exact ⟨fault, rfl⟩

/-! ## Operators that build their components -/

section Determined

variable [Scalar R] {c : List Nat} {σ : Env}

/-- A sum of terms is built. -/
theorem exists_sumUpTo {term : Nat → Option (Expr R)} {n : Nat}
    (h : ∀ j ≤ n, ∃ s, term j = some s ∧ s.isScalar) :
    ∃ s, sumUpTo term n = some s ∧ s.isScalar := by
  induction n with
  | zero => exact h 0 (Nat.le_refl 0)
  | succ n ih =>
    -- one term more: the sum so far is a scalar, and so is the term
    obtain ⟨x, hx, hsx⟩ := ih fun j hj => h j (Nat.le_succ_of_le hj)
    obtain ⟨y, hy, hsy⟩ := h (n + 1) (Nat.le_refl _)
    obtain ⟨s, hs, hscalar⟩ := isScalar_add hsx hsy
    refine ⟨s, ?_, hscalar⟩
    rw [sumUpTo, hx, hy]
    exact toOption_eq_some.mpr hs

/-- Every operator of one operand but an absolute value builds its components, if a sum that has
components has terms. -/
theorem determined_unary {op : UnaryOp} (hop : op.ByComponents) (habs : op ≠ .abs)
    (hca : Canonical a) (happly : op.apply a = .ok (unary op a)) (ha : a.Determined)
    (hsum : ∀ i, op = .indexSum i → (unary op a).Positive → a.Positive) :
    (unary op a).Determined := by
  intro c σ hc hσ
  have hpos := positive_of_component hc hσ
  rw [component_unary happly hop hc]
  cases op with
  | math f =>
    have hshape : (unary (.math f) a).shape = a.shape :=
      (shape_unary _ a).trans (math_built happly).1.symm
    rw [free_unary] at hσ
    obtain ⟨x, hx⟩ := ha c σ (hshape ▸ hc) hσ
    obtain ⟨r, hr⟩ := math_scalar f (component_isScalar hx)
    refine ⟨r, ?_⟩
    rw [unaryComponent, hx]
    exact toOption_eq_some.mpr hr
  | abs => exact absurd rfl habs
  | indexSum i =>
    have hpos := hsum i rfl hpos
    obtain ⟨d, hd⟩ := FreeIndices.has_iff.mp (sumOver_built happly).1
    have hdim := hca.sorted.dim?_eq_some.mpr hd
    rw [shape_unary] at hc
    rw [free_unary] at hσ
    rw [unaryComponent, hdim, Option.getD_some]
    -- there is a first term
    obtain ⟨n, rfl⟩ := Nat.exists_eq_succ_of_ne_zero (Nat.ne_of_gt (hpos.free _ hd))
    obtain ⟨s, hs, -⟩ := exists_sumUpTo (n := n) fun j hj => by
      obtain ⟨x, hx⟩ := ha c _ hc (inRange_bind hca.sorted hσ hdim (Nat.lt_succ_of_le hj))
      exact ⟨x, hx, component_isScalar hx⟩
    exact ⟨s, hs⟩
  | indexed is =>
    obtain ⟨hl, hok⟩ := index_ok happly
    refine ha _ σ (hok.inShape hl hσ) fun f hf => hσ f ?_
    exact (mem_free_unary happly).mpr (.inl ⟨hf, List.not_mem_nil⟩)
  | componentTensor | restricted | grad | referenceGrad | spatialDerivative | averaged
    | labelled => cases hop

/-- Sums, products and powers of scalars are built. -/
theorem exists_apply_scalar {op : BinaryOp} (hop : op ≠ .division) (ha : a.isScalar)
    (hb : b.isScalar) : ∃ r, op.apply a b = .ok r := by
  cases op with
  | sum => exact add_scalar ha hb
  | product => exact mul_scalar ha
  | division => exact absurd rfl hop
  | power => exact pow_scalar ha hb

/-- A node over two operands has a component at every position that its operands have. -/
theorem determined_binary {op : BinaryOp} (hop : op ≠ .division) (hca : Canonical a)
    (hcb : Canonical b) (happly : op.apply a b = .ok (binary op a b)) (ha : a.Determined)
    (hb : b.Determined) : (binary op a b).Determined := by
  intro c σ hc hσ
  obtain ⟨hca', hcb'⟩ := inShape_operands happly hc
  obtain ⟨hσa, hσb⟩ := inRange_operands hca.sorted hcb.sorted happly hσ
  obtain ⟨x, hx⟩ := ha _ σ hca' hσa
  obtain ⟨y, hy⟩ := hb _ σ hcb' hσb
  obtain ⟨r, hr⟩ := exists_apply_scalar hop (component_isScalar hx) (component_isScalar hy)
  exact ⟨r, binaryComponent_eq_some.mpr ⟨x, y, hx, hy, hr⟩⟩

/-- The exponent of a power has one component. -/
theorem positive_exponent (happly : BinaryOp.apply .power a b = .ok (binary .power a b)) :
    b.Positive := by
  obtain ⟨-, hshape, hfree, -⟩ := pow_built happly
  constructor
  · rw [hshape]
    exact nofun
  · rw [hfree]
    exact nofun

/-- Operands that are combined in order have components, or neither has. -/
theorem Populated.operands_fit {op : BinaryOp} (h : (binary op a b).Populated)
    (hprod : op ≠ .product) (hdiv : op ≠ .division)
    (happly : op.apply a b = .ok (binary op a b)) : a.Positive ↔ b.Positive := by
  cases op with
  | sum =>
    -- the two operands have the axes of each other
    obtain ⟨hshape, hfree, -⟩ := add_built happly
    constructor
    · rintro ⟨hs, hf⟩
      exact ⟨hshape ▸ hs, hfree ▸ hf⟩
    · rintro ⟨hs, hf⟩
      exact ⟨hshape ▸ hs, hfree ▸ hf⟩
  | product => exact absurd rfl hprod
  | division => exact absurd rfl hdiv
  | power => exact iff_of_true (h.bases a b .refl) (positive_exponent happly)

end Determined

/-! ## The errors of scalarization -/

section Errors

variable [Scalar R] [DecidableEq R]

/-- The components of a chain are looked up without a failure, and are analysed then. -/
theorem terminalScalars_error (hc : Canonical e) (hm : e.isModifiedTerminal)
    (h : terminalScalars e = .error err) : err.OfScalarization e := by
  unfold terminalScalars at h
  split at h
  · cases h
  · next hz =>
    rw [Bool.not_eq_true] at hz
    -- neither fixing nor indexing fails, so the analysis of a leaf does
    obtain ⟨fixed, hfixed⟩ := exists_fixed_chains hc hm hz
    rcases bind_eq_error.mp h with herr | ⟨fixed', hfixed', h⟩
    · rw [hfixed] at herr
      cases herr
    rcases bind_eq_error.mp h with herr | ⟨_, -, h⟩
    · obtain ⟨c, hcs, herr⟩ := exists_of_flatMapM_error herr
      obtain ⟨a, ha, herr⟩ := exists_of_mapM_error herr
      obtain ⟨σ, hσ, rfl⟩ := eq_of_mem_fixed_chains hc hm hz hfixed' ha
      obtain ⟨s, hs⟩ := exists_index_chain hc hm hz (mem_components.mp hcs) hσ
      rcases bind_eq_error.mp herr with herr | ⟨s', -, herr⟩
      · rw [lift_eq_ok.mpr hs] at herr
        cases herr
      · rcases bind_eq_error.mp herr with herr | ⟨found, -, herr⟩
        · obtain ⟨fault, rfl⟩ := analyse_error herr
          exact .modifiers fault s'
        · cases found with
          | none =>
            cases herr
            exact .unexpectedNode e
          | some m => cases herr
    · cases h

omit [DecidableEq R] in
/-- An absolute value fails for a literal without one only. -/
theorem eachScalar_abs_error {as : Array (Expr R)} (h : eachScalar .abs as = .error err) :
    err = .breach .overflow := by
  rw [eachScalar, Array.mapM_eq_mapM_toList] at h
  cases hm : as.toList.mapM (fun a => (liftM (UnaryOp.abs.apply a) : Result R (Expr R))) with
  | ok rs =>
    rw [hm] at h
    cases h
  | error err' =>
    rw [hm] at h
    cases h
    -- the operand of an absolute value that failed is a literal with no absolute value
    obtain ⟨a, -, ha⟩ := exists_of_mapM_error hm
    obtain ⟨b, hb, rfl⟩ := lift_eq_error.mp ha
    rcases abs_outcome a with ⟨r, hr⟩ | ⟨v, -, -, herr⟩
    · cases hb.symm.trans hr
    · cases hb.symm.trans herr
      rfl

/-- The components of an operator on two operands are built where no division is. -/
theorem exists_binaryScalars {op : BinaryOp} {as bs : Array (Expr R)} (hdiv : op ≠ .division)
    (hp : (binary op a b).Populated) (hca : Canonical a) (hcb : Canonical b)
    (happly : op.apply a b = .ok (binary op a b)) (hlista : Componentwise a as)
    (hlistb : Componentwise b bs) : ∃ rs, binaryScalars op a b as bs = .ok rs := by
  have hdet := determined_binary hdiv hca hcb happly hlista.determined hlistb.determined
  by_cases hprod : op = .product
  · subst hprod
    exact (lists_product hlista hlistb hca hcb happly).complete hdet
  · have hfit := hp.operands_fit hprod hdiv happly
    rw [hlista.positive_iff, hlistb.positive_iff, not_iff_not] at hfit
    rw [binaryScalars_of_ne hprod]
    exact exists_zipScalars hprod hca hcb happly hlista hlistb hfit hdet

/-- **The errors of scalarization.** -/
theorem scalarize_error (hc : Canonical e) (hd : e.DivisionFree) (hp : e.Populated)
    -- node by node, from the operands outwards
    (h : scalarize e = .error err) : err.OfScalarization e := by
  induction hc generalizing err with
  | leaf ht =>
    rw [scalarize_terminal rfl] at h
    exact terminalScalars_error (.leaf ht) rfl h
  | listTensor =>
    rw [scalarize_listTensor] at h
    cases h
    exact .unexpectedNode _
  | @unary op a hca happly ih =>
    have hmem : a ∈ (unary op a).operands := List.mem_singleton.mpr rfl
    cases hm : (unary op a).isModifiedTerminal with
    | true =>
      rw [scalarize_terminal hm] at h
      exact terminalScalars_error (.unary hca happly) hm h
    | false =>
      by_cases hop : op.ByComponents
      · rw [scalarize_unary hop hm] at h
        rcases bind_eq_error.mp h with ha | ⟨as, ha, h⟩
        · exact (ih (hd.operand hmem) (hp.operand hmem) ha).operand hmem
        · have hlist := (componentwise_scalarize hca ha).1
          by_cases habs : op = .abs
          · subst habs
            obtain rfl := eachScalar_abs_error h
            exact .overflow .refl
          · have hsum : ∀ i, op = .indexSum i → (unary op a).Positive → a.Positive := by
              rintro i rfl
              exact hp.sums i a .refl
            -- all components are built, so all are listed
            have hdet := determined_unary hop habs hca happly hlist.determined hsum
            obtain ⟨rs, hrs⟩ := (lists_unary hop hca happly hlist).complete hdet
            rw [hrs] at h
            cases h
      · rw [scalarize_rejected hop hm] at h
        cases h
        exact .unexpectedNode _
  | @binary op a b hca hcb happly iha ihb =>
    have hmema : a ∈ (binary op a b).operands := List.mem_cons_self
    have hmemb : b ∈ (binary op a b).operands := List.mem_cons_of_mem _ List.mem_cons_self
    rw [scalarize_binary] at h
    rcases bind_eq_error.mp h with ha | ⟨as, ha, h⟩
    · exact (iha (hd.operand hmema) (hp.operand hmema) ha).operand hmema
    rcases bind_eq_error.mp h with hb | ⟨bs, hb, h⟩
    · exact (ihb (hd.operand hmemb) (hp.operand hmemb) hb).operand hmemb
    have hlista := (componentwise_scalarize hca ha).1
    have hlistb := (componentwise_scalarize hcb hb).1
    have hdiv : op ≠ .division := fun heq => hd a b (heq ▸ .refl)
    obtain ⟨rs, hrs⟩ := exists_binaryScalars hdiv hp hca hcb happly hlista hlistb
    rw [hrs] at h
    cases h

omit [DecidableEq R] in
/-- **What is scalarized is populated.** -/
theorem Scalarizable.populated (h : Scalarizable e) (hc : Canonical e) : e.Populated := by
  induction h with
  | terminal hm => exact populated_of_isModifiedTerminal hm
  | @unary op a hop hm _ hdet ih =>
    cases hc with
    | unary hca happly =>
    refine populated_of_operands (fun i b heq hpos => ?_) (fun _ _ h => nomatch h) fun b hb => ?_
    · cases heq
      exact hpos.operand trivial hca happly hdet
    · exact List.mem_singleton.mp hb ▸ ih hca
  | @binary op a b _ _ hfit _ iha ihb =>
    cases hc with
    | binary hca hcb happly =>
    refine populated_of_operands (fun _ _ h => nomatch h) (fun x y heq => ?_) fun x hx => ?_
    · cases heq
      exact (hfit (by decide)).mpr (positive_exponent happly)
    · rcases List.mem_pair.mp hx with rfl | rfl
      · exact iha hca
      · exact ihb hcb

end Errors

end Expr

/-! ## The graph of expressions -/

namespace ScalarGraph

open Building

variable [DecidableEq R] {g g' : ScalarGraph R} {err : Error R}

/-- All expressions of a list that can be inserted can be inserted in one run. -/
theorem exists_forM_insertTarget {es : List (Expr R)} (hi : ∀ e ∈ es, Insertable e)
    (g : ScalarGraph R) : ∃ g', Returns (es.forM insertTarget) g () g' := by
  induction es generalizing g with
  | nil => exact ⟨g, returns_pure.mpr ⟨rfl, rfl⟩⟩
  | cons e es ih =>
    obtain ⟨g₁, hfirst⟩ := insertTarget_insertable (hi e List.mem_cons_self) g
    obtain ⟨g', hrest⟩ := ih (fun e he => hi e (List.mem_cons_of_mem _ he)) g₁
    exact ⟨g', returns_bind.mpr ⟨(), g₁, hfirst, hrest⟩⟩

variable [Scalar R]

/-- Components are inserted without a failure. -/
theorem insertTargets_fails {e : Expr R} (hc : Canonical e)
    (h : Fails (insertTargets (scalarize e)) g err g') : scalarize e = .error err := by
  rcases fails_bind.mp h with h | ⟨as, g₁, has, h⟩
  · cases hs : scalarize e with
    | error err' =>
      rw [hs] at h
      cases h
      rfl
    | ok as =>
      rw [hs] at h
      cases h
  -- components of an expression can all be inserted
  · obtain ⟨hscalars, rfl⟩ := returns_ofExcept.mp has
    obtain ⟨g₂, hr⟩ := exists_forM_insertTarget
      (fun s hs => insertable_of_scalarize hc hscalars s (Array.mem_toList_iff.mp hs)) g
    rw [forM_insertTarget_toList] at h
    cases h.symm.trans hr

/-- **The error of a graph is that of scalarization.** -/
theorem ofTargets_error {es : List (Expr R)} (hc : ∀ e ∈ es, Canonical e)
    (h : ofTargets es = .error err) : ∃ e ∈ es, scalarize e = .error err := by
  -- the first expression that fails ends the run, from any graph
  have hfails : ∀ {es : List (Expr R)} {g g' : ScalarGraph R}, (∀ e ∈ es, Canonical e) →
      Fails ((es.map scalarize).forM insertTargets) g err g' →
        ∃ e ∈ es, scalarize e = .error err := by
    intro es
    induction es with
    | nil => exact fun _ h => absurd h fails_pure
    | cons e es ih =>
      intro g g' hc h
      rcases fails_bind.mp h with h | ⟨_, g₁, -, h⟩
      · exact ⟨e, List.mem_cons_self, insertTargets_fails (hc e List.mem_cons_self) h⟩
      · obtain ⟨x, hx, herr⟩ := ih (fun x hx => hc x (List.mem_cons_of_mem _ hx)) h
        exact ⟨x, List.mem_cons_of_mem _ hx, herr⟩
  rw [ofTargets, scalarizeAll_eq] at h
  split at h
  · cases h
  · next err' g' hr =>
    cases h
    exact hfails hc hr

/-- **The graph of expressions without quotients.** If sums that have components have terms, and
bases have components, the graph is built, or a chain or a node is rejected, or an absolute value
does not exist: nothing is looked up where there is nothing, and no two lists of components are
combined that do not fit. Otherwise the graph is not built. -/
theorem ofTargets_populated {es : List (Expr R)} (hb : ∀ e ∈ es, Built e)
    (hd : ∀ e ∈ es, e.DivisionFree) :
    ((∀ e ∈ es, e.Populated) → ∀ err, ofTargets es = .error err →
        ∃ e ∈ es, err.OfScalarization e) ∧
      ((∃ g, ofTargets es = .ok g) → ∀ e ∈ es, e.Populated) := by
  refine ⟨fun hp err h => ?_, fun ⟨g, hg⟩ e he => ?_⟩
  · obtain ⟨e, he, herr⟩ := ofTargets_error (fun e he => (hb e he).canonical) h
    exact ⟨e, he, scalarize_error (hb e he).canonical (hd e he) (hp e he) herr⟩
  · have hc := (hb e he).canonical
    obtain ⟨as, has⟩ := exists_scalarize hg e he
    exact (componentwise_scalarize hc has).2.populated hc

end ScalarGraph

/-! ### The boundary of an interval -/

namespace Endpoint

/-- The coordinate on the facets of an interval, along an axis without positions. -/
def coordinate : Expr ℚ :=
  leaf (.geometry ⟨.facetCoordinate, .ofCell .interval 0⟩)

def entry : Expr ℚ :=
  unary (.indexed [.free 1]) coordinate

/-- The sum over the axis. -/
def total : Expr ℚ :=
  unary (.indexSum 1) entry

/-- The square of every component. -/
def square : Expr ℚ :=
  binary .power entry (leaf (.literal (.int 2)))

theorem built_coordinate : Built coordinate :=
  .geometry _

theorem built_entry : Built entry := by
  have h : UnaryOp.apply (.indexed [.free 1]) coordinate = .ok entry := by cbv
  exact .unary built_coordinate h

theorem built_total : Built total := by
  have h : UnaryOp.apply (.indexSum 1) entry = .ok total := by cbv
  exact .unary built_entry h

/-- The square of the entry can be built, too. -/
theorem built_square : Built square := by
  have htwo : Expr.literal (.int 2) = leaf (R := ℚ) (.literal (.int 2)) := by cbv
  have h : BinaryOp.power.apply entry (leaf (.literal (.int 2))) = .ok square := by cbv
  exact .binary built_entry (htwo ▸ .literal _) h

/-- There is no division in the entry. -/
theorem divisionFree_entry : entry.DivisionFree := by
  intro a b h
  cases h with
  | operand hb h =>
    obtain rfl := List.mem_singleton.mp hb
    cases h with
    | operand hb => cases hb

/-- The total divides by nothing. -/
theorem divisionFree_total : total.DivisionFree := by
  intro a b h
  cases h with
  | operand hb h =>
    obtain rfl := List.mem_singleton.mp hb
    exact divisionFree_entry a b h

/-- Nor does the square. -/
theorem divisionFree_square : square.DivisionFree := by
  intro a b h
  cases h with
  | operand hb h =>
    rcases List.mem_pair.mp hb with rfl | rfl
    · exact divisionFree_entry a b h
    · cases h with
      | operand hb => cases hb

/-- The sum over an axis without entries reads a component that is not there. -/
theorem ofTargets_total :
    ScalarGraph.ofTargets [total] = .error (.breach .outOfBounds) := by
  rw [ScalarGraph.ofTargets, scalarizeAll_eq]
  with_unfolding_all rfl

/-- The power has a base without components and an exponent with one. -/
theorem ofTargets_square :
    ScalarGraph.ofTargets [square] = .error (.breach (.componentCounts 0 1)) := by
  rw [ScalarGraph.ofTargets, scalarizeAll_eq]
  with_unfolding_all rfl

end Endpoint

/-- A sum over an axis without positions looks for its first term, and the square of a tensor over
such an axis pairs no component with one. -/
theorem ScalarGraph.ofTargets_endpoint :
    (Built Endpoint.total ∧ Endpoint.total.DivisionFree ∧
        ofTargets [Endpoint.total] = .error (.breach .outOfBounds)) ∧
      (Built Endpoint.square ∧ Endpoint.square.DivisionFree ∧
        ofTargets [Endpoint.square] = .error (.breach (.componentCounts 0 1))) :=
  ⟨⟨Endpoint.built_total, Endpoint.divisionFree_total, Endpoint.ofTargets_total⟩,
    Endpoint.built_square, Endpoint.divisionFree_square, Endpoint.ofTargets_square⟩

/-- The implicit sum has no division, either. -/
theorem Expr.TwoVectors.divisionFree_implicit : TwoVectors.implicit.DivisionFree := by
  -- an entry is a terminal, and its indexing divides by nothing
  have hentry : ∀ {count : Nat} {a b : Expr ℚ},
      ¬Subexpression (binary .division a b) (TwoVectors.entry count (.free 0)) := by
    intro count a b h
    cases h with
    | operand hb h =>
      obtain rfl := List.mem_singleton.mp hb
      cases h with
      | operand hb => cases hb
  intro a b h
  cases h with
  | operand hb h =>
    obtain rfl := List.mem_singleton.mp hb
    cases h with
    | operand hb h =>
      rcases List.mem_pair.mp hb with rfl | rfl
      · exact hentry h
      · exact hentry h

/-- The product of two vectors is populated, since its graph is built. The sum and the square over
an axis without positions are not, since their graphs are not built for other reasons. -/
theorem ScalarGraph.ofTargets_populated_twoVectors :
    TwoVectors.implicit.Populated ∧ ¬Endpoint.total.Populated ∧ ¬Endpoint.square.Populated := by
  have hsingle : ∀ {P : Expr ℚ → Prop} {e : Expr ℚ}, P e → ∀ e' ∈ [e], P e' :=
    fun h e' he => List.mem_singleton.mp he ▸ h
  refine ⟨?_, fun hp => ?_, fun hp => ?_⟩
  · exact (ofTargets_populated (hsingle TwoVectors.built_implicit)
      (hsingle TwoVectors.divisionFree_implicit)).2 TwoVectors.exists_ofTargets_implicit _
      List.mem_cons_self
  · obtain ⟨e, -, h⟩ := (ofTargets_populated (hsingle Endpoint.built_total)
      (hsingle Endpoint.divisionFree_total)).1 (hsingle hp) _ Endpoint.ofTargets_total
    cases h
  · obtain ⟨e, -, h⟩ := (ofTargets_populated (hsingle Endpoint.built_square)
      (hsingle Endpoint.divisionFree_square)).1 (hsingle hp) _ Endpoint.ofTargets_square
    cases h

end WeakForm
