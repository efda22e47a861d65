import Mathlib
import WeakForm.Machine
import WeakForm.Monomial.Basic

/-!
# Sums of monomials up to order

`isEquivalent` takes the monomials of one sum out of the other one by one, and always
takes the first that is the same. Equality of monomials is symmetric and transitive
but not reflexive, since a coefficient need not be equal to itself: enough for the
choice never to matter.

* `Match` — one sum in some order is the other, monomial by monomial;
* `Match.of_cons` — any two monomials that are the same can be taken out of a match;
* `isEquivalent_iff_match` — what the greedy search decides;
* `float_comparable`, `float_same_self_iff` — equality of doubles, and where it fails;
* `isEquivalent_equality_of_multisets` — the result for the numbers of the program.
-/

namespace WeakForm

/-- Numeric equality is symmetric and transitive. -/
structure Scalar.Comparable (R : Type) [Scalar R] : Prop where
  symm : ∀ {x y : R}, Scalar.same x y = true → Scalar.same y x = true
  trans : ∀ {x y z : R}, Scalar.same x y = true → Scalar.same y z = true → Scalar.same x z = true

section Generic

variable {R : Type} [Scalar R] [DecidableEq R]

/-- Monomials are the same when coefficients, factors and slots are. -/
theorem Monomial.same_iff {m n : Monomial R} :
    m.same n = true ↔ Scalar.same m.coefficient n.coefficient = true ∧
      m.factors = n.factors ∧ m.slots = n.slots := by
  simp [Monomial.same, and_assoc]

theorem Monomial.same_self_iff {m : Monomial R} :
    m.same m = true ↔ Scalar.same m.coefficient m.coefficient = true := by
  simp [Monomial.same_iff]

namespace Scalar.Comparable

theorem same_symm (hR : Comparable R) {m n : Monomial R} (h : m.same n = true) :
    n.same m = true := by
  obtain ⟨hc, hf, hs⟩ := Monomial.same_iff.mp h
  exact Monomial.same_iff.mpr ⟨hR.symm hc, hf.symm, hs.symm⟩

theorem same_trans (hR : Comparable R) {m n k : Monomial R} (hmn : m.same n = true)
    (hnk : n.same k = true) : m.same k = true := by
  obtain ⟨hc, hf, hs⟩ := Monomial.same_iff.mp hmn
  obtain ⟨hc', hf', hs'⟩ := Monomial.same_iff.mp hnk
  exact Monomial.same_iff.mpr ⟨hR.trans hc hc', hf.trans hf', hs.trans hs'⟩

end Scalar.Comparable

namespace MonomialSum

/-- The same monomials in the same order, as a relation item by item. -/
theorem same_iff_forall₂ {a b : MonomialSum R} :
    a.same b = true ↔ List.Forall₂ (fun m n => m.same n = true) a b := by
  rw [List.forall₂_iff_zip]
  simp only [same, Bool.and_eq_true, beq_iff_eq, List.all_eq_true, Prod.forall]

/-- One sum in some order is the other, monomial by monomial. -/
def Match (a b : MonomialSum R) : Prop :=
  ∃ c : MonomialSum R, List.Perm a c ∧ c.same b = true

namespace Match

/-- Matching sums still match with one more pair in front. -/
theorem cons {a b : MonomialSum R} {m n : Monomial R} (hmn : m.same n = true) (h : Match a b) :
    Match (m :: a) (n :: b) := by
  obtain ⟨c, hperm, hsame⟩ := h
  exact ⟨m :: c, hperm.cons m, same_iff_forall₂.mpr (.cons hmn (same_iff_forall₂.mp hsame))⟩

/-- A match does not depend on the order of the left sum. -/
theorem perm_left {a a' b : MonomialSum R} (hperm : List.Perm a a') (h : Match a' b) :
    Match a b := by
  obtain ⟨c, hc, hsame⟩ := h
  exact ⟨c, hperm.trans hc, hsame⟩

/-- A reordering of the second sum is one of the first. -/
theorem perm_right {a b b' : MonomialSum R} (h : Match a b) (hperm : List.Perm b b') :
    Match a b' := by
  obtain ⟨c, hc, hsame⟩ := h
  have hcomp :
      Relation.Comp (List.Forall₂ fun m n : Monomial R => m.same n = true) List.Perm c b' :=
    ⟨b, same_iff_forall₂.mp hsame, hperm⟩
  rw [List.forall₂_comp_perm_eq_perm_comp_forall₂] at hcomp
  obtain ⟨c', hc', hsame'⟩ := hcomp
  exact ⟨c', hc.trans hc', same_iff_forall₂.mpr hsame'⟩

/-- A monomial of a matched sum has its like in the other, and the rest match. -/
theorem split {a b : MonomialSum R} {m : Monomial R} (h : Match (m :: a) b) :
    ∃ n b', m.same n = true ∧ List.Perm b (n :: b') ∧ Match a b' := by
  obtain ⟨c, hperm, hsame⟩ := h
  have hcomp : Relation.Comp List.Perm (List.Forall₂ fun m n : Monomial R => m.same n = true)
      (m :: a) b := ⟨c, hperm, same_iff_forall₂.mp hsame⟩
  rw [← List.forall₂_comp_perm_eq_perm_comp_forall₂] at hcomp
  obtain ⟨b', hforall, hb⟩ := hcomp
  cases hforall with
  | @cons _ n _ b' hmn hrest =>
    exact ⟨n, b', hmn, hb.symm, a, .refl a, same_iff_forall₂.mpr hrest⟩

/-- **Any two monomials that are the same can be taken out of a match.** Their partners
are then each other's: they are the same by way of the two. -/
theorem of_cons (hR : Scalar.Comparable R) {a b : MonomialSum R} {m n : Monomial R}
    (hmn : m.same n = true) (h : Match (m :: a) (n :: b)) : Match a b := by
  obtain ⟨c, hperm, hsame⟩ := h
  cases same_iff_forall₂.mp hsame with
  | @cons x _ c _ hxn hrest =>
    rcases List.mem_cons.mp (hperm.mem_iff.mp List.mem_cons_self) with rfl | hmem
    · exact ⟨c, hperm.cons_inv, same_iff_forall₂.mpr hrest⟩
    -- `m` stands further on, with a partner `k`; `n` has the partner `x`
    · obtain ⟨s, t, rfl⟩ := List.append_of_mem hmem
      have ha : List.Perm a (x :: (s ++ t)) :=
        (hperm.trans ((List.perm_middle.cons x).trans (.swap m x _))).cons_inv
      have hmatch : Match (m :: (s ++ t)) b :=
        ⟨_, List.perm_middle.symm, same_iff_forall₂.mpr hrest⟩
      obtain ⟨k, b', hmk, hb, hst⟩ := hmatch.split
      have hxk : x.same k = true := hR.same_trans (hR.same_trans hxn (hR.same_symm hmn)) hmk
      exact ((hst.cons hxk).perm_left ha).perm_right hb.symm

/-- Matching is symmetric. -/
theorem symm (hR : Scalar.Comparable R) {a b : MonomialSum R} (h : Match a b) : Match b a := by
  obtain ⟨c, hperm, hsame⟩ := h
  have hflip : Match b c :=
    ⟨b, .refl b, same_iff_forall₂.mpr
      ((same_iff_forall₂.mp hsame).flip.imp fun _ _ => hR.same_symm)⟩
  exact hflip.perm_right hperm.symm

/-- Matching is transitive. -/
theorem trans (hR : Scalar.Comparable R) {a b c : MonomialSum R} (hab : Match a b)
    (hbc : Match b c) : Match a c := by
  induction a generalizing b c with
  | nil =>
    obtain ⟨a', hperm, hsame⟩ := hab
    obtain rfl := List.nil_perm.mp hperm
    cases same_iff_forall₂.mp hsame
    exact hbc
  | cons m a ih =>
    -- the like of `m` in `b` has its own in `c`
    obtain ⟨n, b', hmn, hb, hrest⟩ := hab.split
    obtain ⟨k, c', hnk, hc, hrest'⟩ := (hbc.perm_left hb.symm).split
    exact ((ih hrest hrest').cons (hR.same_trans hmn hnk)).perm_right hc.symm

end Match

/-- What is taken out of a sum is a monomial that is the same, and only it. -/
theorem perm_of_remove? {m : Monomial R} {b c : MonomialSum R} (h : remove? m b = some c) :
    ∃ n, n.same m = true ∧ List.Perm b (n :: c) := by
  induction b generalizing c with
  | nil => simp [remove?] at h
  | cons n b ih =>
    rw [remove?] at h
    split at h
    -- the first monomial is the one removed
    case isTrue hsame =>
      cases h
      exact ⟨n, hsame, .refl _⟩
    -- the one removed stands further on
    case isFalse =>
      obtain ⟨c', hc', rfl⟩ := Option.map_eq_some_iff.mp h
      obtain ⟨k, hk, hperm⟩ := ih hc'
      exact ⟨k, hk, (hperm.cons n).trans (.swap k n c')⟩

/-- A monomial that has a partner in a sum can be removed from it. -/
theorem remove?_ne_none {m n : Monomial R} {b : MonomialSum R} (hmem : n ∈ b)
    (hsame : n.same m = true) : remove? m b ≠ none := by
  induction b with
  | nil => simp at hmem
  | cons k b ih =>
    rw [remove?]
    split
    case isTrue => simp
    case isFalse hk =>
      obtain rfl | hmem := List.mem_cons.mp hmem
      · exact absurd hsame hk
      · simpa using ih hmem

/-- **The greedy search finds a match whenever there is one.** -/
theorem isEquivalent_iff_match (hR : Scalar.Comparable R) {a b : MonomialSum R} :
    a.isEquivalent b = true ↔ Match a b := by
  induction a generalizing b with
  | nil =>
    -- nothing matches nothing only
    rw [isEquivalent, List.isEmpty_iff]
    constructor
    · rintro rfl
      exact ⟨[], .refl _, rfl⟩
    · rintro ⟨c, hperm, hsame⟩
      obtain rfl := List.nil_perm.mp hperm
      cases same_iff_forall₂.mp hsame
      rfl
  | cons m a ih =>
    rw [isEquivalent]
    constructor
    -- the partner that was removed matches the first monomial
    · intro h
      split at h
      case h_1 b' hb' =>
        obtain ⟨n, hnm, hperm⟩ := perm_of_remove? hb'
        exact ((ih.mp h).cons (hR.same_symm hnm)).perm_right hperm.symm
      case h_2 => cases h
    -- conversely a partner exists, so one is found
    · intro h
      obtain ⟨n, b', hmn, hb, -⟩ := h.split
      have hmem : n ∈ b := hb.mem_iff.mpr List.mem_cons_self
      obtain ⟨b'', hb''⟩ := Option.ne_none_iff_exists'.mp
        (remove?_ne_none hmem (hR.same_symm hmn))
      -- the monomial found need not be `n`
      obtain ⟨k, hkm, hperm⟩ := perm_of_remove? hb''
      simp only [hb'']
      exact ih.mpr ((h.perm_right hperm).of_cons hR (hR.same_symm hkm))

/-- A sum is equivalent to itself if its coefficients are equal to themselves, and only then. -/
theorem isEquivalent_self_iff (hR : Scalar.Comparable R) {a : MonomialSum R} :
    a.isEquivalent a = true ↔ ∀ m ∈ a, Scalar.same m.coefficient m.coefficient = true := by
  rw [isEquivalent_iff_match hR]
  constructor
  · intro h m hm
    obtain ⟨s, t, rfl⟩ := List.append_of_mem hm
    -- by way of its partner, `m` is the same as itself
    obtain ⟨n, -, hmn, -⟩ := (h.perm_left List.perm_middle.symm).split
    exact Monomial.same_self_iff.mp (hR.same_trans hmn (hR.same_symm hmn))
  · intro h
    exact ⟨a, .refl a, same_iff_forall₂.mpr
      (List.forall₂_same.mpr fun m hm => Monomial.same_self_iff.mpr (h m hm))⟩

end MonomialSum

end Generic

/-! ### Double precision -/

/-- Floating-point numbers are compared symmetrically and transitively. -/
theorem float_comparable : Scalar.Comparable Float where
  symm := PartialEquivBEq.symm
  trans := PartialEquivBEq.trans

/-- A double is equal to itself if it is no NaN. -/
theorem float_same_self_iff {x : Float} : Scalar.same x x = true ↔ x.isNaN = false := by
  rw [Float.isNaN_eq_decide_eq_nan, decide_eq_false_iff_not]
  exact Float.beq_self_iff

namespace MonomialSum

/-- Every coefficient is a number. -/
def NaNFree (a : MonomialSum Float) : Prop :=
  ∀ m ∈ a, m.coefficient.isNaN = false

/-- A sum of floating-point monomials equals itself exactly without NaN. -/
theorem isEquivalent_self_iff_naNFree {a : MonomialSum Float} :
    a.isEquivalent a = true ↔ a.NaNFree := by
  rw [isEquivalent_self_iff float_comparable]
  exact forall₂_congr fun m _ => float_same_self_iff

/-- **Equivalence is equality of multisets.** It holds of two sums exactly when some order
of the first is the second up to equality of monomials; so it is symmetric and
transitive, and it is reflexive on the sums without NaN coefficients, and only there. -/
theorem isEquivalent_equality_of_multisets (a b c : MonomialSum Float) :
    (a.isEquivalent b = true ↔ ∃ a' : MonomialSum Float, List.Perm a a' ∧ a'.same b = true) ∧
      (a.isEquivalent a = true ↔ a.NaNFree) ∧
      a.isEquivalent b = b.isEquivalent a ∧
      (a.isEquivalent b = true → b.isEquivalent c = true → a.isEquivalent c = true) := by
  have hsymm {a b : MonomialSum Float} (h : a.isEquivalent b = true) :
      b.isEquivalent a = true := by
    rw [isEquivalent_iff_match float_comparable] at h ⊢
    exact h.symm float_comparable
  refine ⟨isEquivalent_iff_match float_comparable, isEquivalent_self_iff_naNFree,
    Bool.eq_iff_iff.mpr ⟨hsymm, hsymm⟩, ?_⟩
  simp only [isEquivalent_iff_match float_comparable]
  exact Match.trans float_comparable

namespace Repetition

/-- A number times a power of the volume of an interval. -/
def term (x : Float) (power : Nat) : Monomial Float where
  coefficient := x
  factors := List.replicate power
    { function := .leaf (.geometry ⟨.cellVolume, .ofCell .interval 0⟩) }

def first : MonomialSum Float := [term 2 1, term 2 1, term 0 0]

def second : MonomialSum Float := [term 2 1, term (-0) 0, term 2 1]

def third : MonomialSum Float := [term 0 0, term 2 1, term 2 1]

end Repetition

open Repetition in
/-- Three orders of a sum with a repeated monomial and a zero of either sign. -/
theorem isEquivalent_equality_of_multisets_repetition :
    first.NaNFree ∧ first.isEquivalent second = true ∧ second.isEquivalent third = true ∧
      first.isEquivalent third = true := by
  have hfirst : first.isEquivalent first = true := by with_unfolding_all rfl
  have hsecond : first.isEquivalent second = true := by with_unfolding_all rfl
  have hthird : second.isEquivalent third = true := by with_unfolding_all rfl
  obtain ⟨-, hself, -, htrans⟩ := isEquivalent_equality_of_multisets first second third
  exact ⟨hself.mp hfirst, hsecond, hthird, htrans hsecond hthird⟩

/-- A NaN coefficient is not equal to itself. -/
example : isEquivalent [Repetition.term (0 / 0) 1] [Repetition.term (0 / 0) 1] = false := by
  with_unfolding_all rfl

end MonomialSum

end WeakForm
