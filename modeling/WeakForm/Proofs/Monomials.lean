import WeakForm.Proofs.Extraction
import WeakForm.Proofs.ListItems
import WeakForm.Proofs.NormalForm

/-!
# The monomials of an integrand

List items are selected before monomials are extracted, which keeps the values. So a
polynomial integrand has the value of its monomials, each summed over the indices that are
not free in the integrand, where the summations are kept apart.

Extraction does not see to that. The monomials of a power repeat the summed index of the base
in all factors, which turns the square of a sum into the sum of the squares.

* `monomials_value` — the monomials have the value of the integrand;
* `monomials_value_square` — the square of a sum, whose monomials have another value.
-/

namespace WeakForm

/-! ## Functions on the rationals that are constant -/

/-- The rationals with terminals that have no derivatives and are the same on both sides. -/
def Model.still (terminal : Terminal ℚ → List Nat → ℚ) : Model ℚ ℚ :=
  .rational terminal fun
    | .spatialDerivative is, _, f, c, σ => if is = [] then f c σ else 0
    | _, _, f, c, σ => f c σ

def Model.Differential.still (terminal : Terminal ℚ → List Nat → ℚ) :
    (Model.still terminal).Differential where
  derivative _ := 0
  side _ := .id ℚ
  derivative_number _ _ := rfl
  side_number _ _ := rfl
  derivative_side _ _ _ := rfl
  derivative_power _ _ _ _ _ := rfl
  derivative_terminal _ _ _ _ := rfl
  modified_derivative is a f c σ := by
    have hzero : ∀ ks : List Nat, ks.foldl (fun x k => (0 : Derivation ℤ ℚ ℚ) x) (0 : ℚ) = 0 := by
      intro ks
      induction ks with
      | nil => rfl
      | cons k ks ih => exact ih
    -- without directions nothing is derived
    cases is with
    | nil => rfl
    | cons j is => exact (hzero (is.map σ.resolve)).symm
  modified_restricted _ _ _ _ _ := rfl

namespace Expr

variable {R A : Type} [Scalar R] [DecidableEq R] [CommRing A] {M : Model R A} {gdim : Nat}
  {e r : Expr R} {ms : MonomialSum R}

omit [CommRing A] in
/-- Monomials are extracted after items of lists are selected. -/
theorem monomials_ok (h : e.monomials = .ok ms) :
    ∃ r, e.resolveItems = .ok r ∧ r.extract = .ok ms := by
  obtain ⟨r, hr, h⟩ := bind_eq_ok.mp h
  exact ⟨r, lift_eq_ok.mp hr, h⟩

/-- **The monomials of a polynomial integrand have its value**, where its summations are kept
apart. -/
theorem monomials_value (hM : M.Exact) (hpow : M.ExactPowers) (Δ : M.Differential)
    (hbuilt : Built e) (hpoly : Polynomial e) (hspace : InSpace gdim e) (hshape : e.shape = [])
    (hapart : ∀ r, e.resolveItems = .ok r → SumsApart r) (h : e.monomials = .ok ms) (σ : Env) :
    MonomialSum.value Δ ms e.free [] σ = e.value M [] σ := by
  obtain ⟨r, hr, hextract⟩ := monomials_ok h
  have hresolves : Resolves M gdim e r := by
    rw [resolveItems_eq_resolve] at hr
    exact resolve_resolves hM hpow Δ hbuilt.canonical hpoly hspace hr
  -- extraction is exact on the resolved expression
  have hdenotes : MonomialSum.Denotes Δ gdim ms r.scope (r.value M) :=
    extract_denotes hM hpow hresolves.canonical hresolves.polynomial hresolves.inSpace
      (hapart r hr) hextract
  have hrank : ([] : List Nat).length = e.rank := by
    rw [rank, hshape]
  -- selection keeps the value and the free indices, and extraction keeps the value
  calc MonomialSum.value Δ ms e.free [] σ
      = MonomialSum.value Δ ms r.free [] σ := by rw [hresolves.free]
    _ = r.value M [] σ :=
        (hdenotes.value [] σ (hrank.trans hresolves.rank.symm)).symm
    _ = e.value M [] σ := hresolves.value [] σ hrank

omit [CommRing A] in
/-- An integrand without list tensors is extracted as it is. -/
theorem monomials_of_isListFree (h : e.isListFree) : e.monomials = e.extract := by
  rw [monomials, resolveItems_eq_resolve, resolve_of_isListFree h]
  rfl

/-! ### A sum of products, and the square of a sum -/

namespace Contraction

/-- The component of a vector at a free index, as a factor. -/
def factor (count : Nat) (i : IndexId) : Factor ℚ :=
  { function := vector count, components := [.free i] }

/-- The monomials `v[j] w[j]` of the contraction of two vectors, where `j` is 2. -/
def products : MonomialSum ℚ :=
  [{ coefficient := 1, factors := [factor 0 2, factor 1 2] }]

/-- `(∑ᵢ v[i])²`, where `i` is 1. -/
def square : Expr ℚ :=
  binary .power (unary (.indexSum 1) (entry 0 1)) (leaf (.literal (.int 2)))

/-- The monomials `v[i] v[i]` of the square. -/
def squares : MonomialSum ℚ :=
  [{ coefficient := 1, factors := [factor 0 1, factor 0 1] }]

theorem polynomial_entry (count : Nat) (i : IndexId) : Polynomial (entry count i) :=
  .unary rfl (.leaf rfl)

theorem inSpace_entry (count : Nat) (i : IndexId) : InSpace 2 (entry count i) := by
  refine .unary (.leaf fun d hd => ?_)
  cases hd
  rfl

/-- The contraction of two vectors is built by the constructors. -/
theorem built_contraction : Built (contraction 2) := by
  have hv : UnaryOp.apply (.indexed [.free 2]) (vector 0) = .ok (entry 0 2) := by
    cbv
  have hw : UnaryOp.apply (.indexed [.free 2]) (vector 1) = .ok (entry 1 2) := by
    cbv
  have hproduct : BinaryOp.apply .product (entry 0 2) (entry 1 2) =
      .ok (binary .product (entry 0 2) (entry 1 2)) := by
    cbv
  have hsum : UnaryOp.apply (.indexSum 2) (binary .product (entry 0 2) (entry 1 2)) =
      .ok (contraction 2) := by
    cbv
  have hfactors := Built.binary (.unary (.coefficient _) hv) (.unary (.coefficient _) hw) hproduct
  exact .unary hfactors hsum

/-- The summations of the contraction are kept apart. -/
theorem sumsApart_contraction : SumsApart (contraction 2) := by
  have hentry : ∀ count, SumsApart (entry count 2) := fun count =>
    ⟨trivial, fun i _ => List.not_mem_nil⟩
  have hapart : FactorsApart (entry 0 2) (entry 1 2) :=
    ⟨fun i hi => absurd hi List.not_mem_nil, fun i hi => absurd hi List.not_mem_nil,
      .inl ⟨shape_unary _ _, shape_unary _ _⟩⟩
  exact ⟨hentry 0, hentry 1, hapart⟩

/-- The square of a sum is built by the constructors. -/
theorem built_square : Built square := by
  have hv : UnaryOp.apply (.indexed [.free 1]) (vector 0) = .ok (entry 0 1) := by
    cbv
  have hsum : UnaryOp.apply (.indexSum 1) (entry 0 1) =
      .ok (unary (.indexSum 1) (entry 0 1)) := by
    cbv
  have hpower : BinaryOp.apply .power (unary (.indexSum 1) (entry 0 1)) (literal (.int 2)) =
      .ok square := by
    cbv
  exact .binary (.unary (.unary (.coefficient _) hv) hsum) (.literal (.int 2)) hpower

end Contraction

/-- A sum of products is its monomial, summed over the index. -/
theorem monomials_value_contraction :
    (Contraction.contraction 2).monomials = .ok Contraction.products ∧
      ∀ σ : Env, MonomialSum.value (.still fun _ c => (c.sum : ℚ)) Contraction.products
          (Contraction.contraction 2).free [] σ =
        (Contraction.contraction 2).value (.still fun _ c => (c.sum : ℚ)) [] σ := by
  have hfree : (Contraction.contraction 2).isListFree := rfl
  have hmonomials : (Contraction.contraction 2).monomials = .ok Contraction.products := by
    rw [monomials_of_isListFree hfree]
    cbv
  -- the contraction is a polynomial in the coefficients
  have hpoly : Polynomial (Contraction.contraction 2) :=
    .unary rfl (.binary rfl (Contraction.polynomial_entry 0 2) (Contraction.polynomial_entry 1 2))
  have hspace : InSpace 2 (Contraction.contraction 2) :=
    .unary (.binary (Contraction.inSpace_entry 0 2) (Contraction.inSpace_entry 1 2))
  refine ⟨hmonomials, monomials_value Model.rational_exact Model.rational_exactPowers _
    Contraction.built_contraction hpoly hspace (by cbv) (fun r hr => ?_) hmonomials⟩
  rw [resolveItems_eq_resolve, resolve_of_isListFree hfree] at hr
  cases hr
  exact Contraction.sumsApart_contraction

/-- The monomial of the square of a sum stands for the sum of the squares: of two components
that are one, the sum is two and its square is four. -/
theorem monomials_value_square :
    Built Contraction.square ∧ Polynomial Contraction.square ∧ InSpace 2 Contraction.square ∧
      Contraction.square.shape = [] ∧
      Contraction.square.monomials = .ok Contraction.squares ∧
      ∀ σ : Env, MonomialSum.value (.still fun _ _ => 1) Contraction.squares
          Contraction.square.free [] σ = 2 ∧
        Contraction.square.value (.still fun _ _ => 1) [] σ = 4 := by
  refine ⟨Contraction.built_square,
    .binary rfl (.unary rfl (Contraction.polynomial_entry 0 1)) (.leaf rfl),
    .binary (.unary (Contraction.inSpace_entry 0 1)) (.leaf fun d hd => nomatch hd), by cbv, ?_,
    fun σ => ⟨?_, ?_⟩⟩
  · rw [monomials_of_isListFree rfl]
    cbv
  · -- the index is the same in both factors, and is summed over once
    have hfree : Contraction.square.free = [] := by
      cbv
    have hhidden : Monomial.hidden
        { coefficient := (1 : ℚ), factors := [Contraction.factor 0 1, Contraction.factor 0 1] } [] =
        [⟨1, 2⟩] := by
      cbv
    -- the two factors give one, so the sum over two positions is two
    rw [hfree, MonomialSum.value, Contraction.squares, List.map_singleton, List.sum_singleton,
      Monomial.value, hhidden]
    show ∑ j ∈ Finset.range 2, (1 : ℚ) * (1 * (1 * 1)) = 2
    norm_num
  -- the expression sums before it squares
  · have hdim : (Contraction.entry 0 1).free.dim? 1 = some 2 := by
      cbv
    rw [Contraction.square, value_binary_power, value_unary_indexSum, hdim]
    show (Model.still fun _ _ => 1).power (∑ j ∈ Finset.range 2, (1 : ℚ)) ((2 : Nat) : ℚ) = 4
    refine (Model.rational_exactPowers.nat _ 2).trans ?_
    norm_num

end Expr

end WeakForm
