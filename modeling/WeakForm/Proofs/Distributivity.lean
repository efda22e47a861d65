import WeakForm.Proofs.Layout
import WeakForm.Proofs.MonomialEquivalence

/-!
# Multiplication of sums distributes over addition

A product lists the products of monomials in rows, one row for each monomial of the left
operand. If that operand is a sum, its rows are those of the first summand and then those of the
second one. If the right operand is a sum, each row is split in two: the same products stand on
both sides of the law, and in another order. So the sides are equivalent, unless a product is not
equal to itself.

* `add_mul_rows`, `mul_add_perm` — the law on the left, and on the right up to order;
* `isEquivalent_iff_of_perm` — when two orders of a sum are equivalent;
* `RowsOf`, `rowsOf_mul` — the place of each product, and its factors;
* `NaNFreeProducts`, `naNFree_mul_iff` — products of numbers that are numbers;
* `mul_distributes` — both laws for the numbers of the program.
-/

namespace WeakForm.MonomialSum

section Generic

variable {R : Type} [Scalar R] {a b c : MonomialSum R} {m n p : Monomial R}

theorem mem_mul : p ∈ a.mul b ↔ ∃ m ∈ a, ∃ n ∈ b, m.mul n = p := by
  simp [mul]

/-- The rows of a sum on the left are those of its summands. -/
theorem add_mul_rows (a b c : MonomialSum R) : (a.add b).mul c = (a.mul c).add (b.mul c) :=
  List.flatMap_append

/-- With a sum on the right, each row has the products with both summands. -/
theorem mul_add_perm (a b c : MonomialSum R) :
    List.Perm (a.mul (b.add c)) ((a.mul b).add (a.mul c)) := by
  have hrow : a.mul (b.add c) = a.flatMap fun m => b.map m.mul ++ c.map m.mul := by
    simp only [mul, add, List.map_append]
  rw [hrow]
  exact (List.flatMap_append_perm a (fun m => b.map m.mul) fun m => c.map m.mul).symm

/-- The products of two sums, row by row. The factors of the left monomial come first, and
the product has no slots. -/
structure RowsOf (a b p : MonomialSum R) : Prop where
  length : p.length = a.length * b.length
  entry : ∀ (i j : Nat) (m n : Monomial R), a[i]? = some m → b[j]? = some n →
    p[i * b.length + j]? =
      some ⟨Scalar.mul m.coefficient n.coefficient, m.factors ++ n.factors, none⟩

/-- They stand in rows, one for each term on the left. -/
theorem rowsOf_mul (a b : MonomialSum R) : RowsOf a b (a.mul b) := by
  have hrow : ∀ m ∈ a, (b.map m.mul).length = b.length := fun m _ => List.length_map _
  refine ⟨length_rows hrow, fun i j m n hi hj => ?_⟩
  have hlt : j < b.length := (List.getElem?_eq_some_iff.mp hj).1
  rw [mul, getElem?_flatMap hrow hi hlt, List.getElem?_map, hj]
  rfl

variable [DecidableEq R]

/-- A sum is the same as itself when each coefficient is. -/
theorem same_self_iff : a.same a = true ↔
    ∀ m ∈ a, Scalar.same m.coefficient m.coefficient = true := by
  rw [same_iff_forall₂, List.forall₂_same]
  simp only [Monomial.same_self_iff]

/-- Two orders of a sum are equivalent if its coefficients are equal to themselves. -/
theorem isEquivalent_iff_of_perm (hR : Scalar.Comparable R) (h : List.Perm a b) :
    a.isEquivalent b = true ↔ ∀ m ∈ a, Scalar.same m.coefficient m.coefficient = true := by
  rw [← isEquivalent_self_iff hR, isEquivalent_iff_match hR, isEquivalent_iff_match hR]
  constructor
  · intro hmatch
    exact hmatch.perm_right h.symm
  · intro hmatch
    exact hmatch.perm_right h

end Generic

/-! ## Double precision -/

variable {a b c : MonomialSum Float}

/-- A coefficient of one sum times a coefficient of the other is a number. -/
def NaNFreeProducts (a b : MonomialSum Float) : Prop :=
  ∀ m ∈ a, ∀ n ∈ b, (Scalar.mul m.coefficient n.coefficient).isNaN = false

/-- A product is free of what is no number when all its coefficients are. -/
theorem naNFree_mul_iff : (a.mul b).NaNFree ↔ NaNFreeProducts a b := by
  constructor
  · intro h m hm n hn
    exact h (m.mul n) (mem_mul.mpr ⟨m, hm, n, hn, rfl⟩)
  · intro h p hp
    obtain ⟨m, hm, n, hn, rfl⟩ := mem_mul.mp hp
    exact h m hm n hn

/-- A sum of sums is free of what is no number when both are. -/
theorem naNFree_add_iff : (a.add b).NaNFree ↔ a.NaNFree ∧ b.NaNFree := by
  simp only [NaNFree, add, List.mem_append]
  constructor
  · intro h
    exact ⟨fun m hm => h m (.inl hm), fun m hm => h m (.inr hm)⟩
  · rintro ⟨ha, hb⟩ m (hm | hm)
    · exact ha m hm
    · exact hb m hm

/-- So is a sum with its terms in another order. -/
theorem naNFree_iff_of_perm (h : List.Perm a b) : a.NaNFree ↔ b.NaNFree := by
  constructor
  · intro ha m hm
    exact ha m (h.mem_iff.mpr hm)
  · intro hb m hm
    exact hb m (h.mem_iff.mp hm)

/-- A sum is the same as itself exactly when no coefficient is no number. -/
theorem same_self_iff_naNFree : a.same a = true ↔ a.NaNFree := by
  rw [same_self_iff]
  exact forall₂_congr fun m _ => float_same_self_iff

theorem isEquivalent_iff_naNFree (h : List.Perm a b) : a.isEquivalent b = true ↔ a.NaNFree := by
  rw [isEquivalent_iff_of_perm float_comparable h]
  exact forall₂_congr fun m _ => float_same_self_iff

/-- **Multiplication distributes over addition on both sides.** With a sum on the left, both
sides are one list, and it compares as equal to itself. With a sum on the right, the sides are
equivalent. For either, the products of coefficients have to be numbers, and this is enough. A
product has a row for each monomial of the left operand, and in each of its monomials the
factors of the left operand come first. -/
theorem mul_distributes (a b c : MonomialSum Float) :
    (a.add b).mul c = (a.mul c).add (b.mul c) ∧
      (((a.add b).mul c).same ((a.mul c).add (b.mul c)) = true ↔
        NaNFreeProducts a c ∧ NaNFreeProducts b c) ∧
      ((a.mul (b.add c)).isEquivalent ((a.mul b).add (a.mul c)) = true ↔
        NaNFreeProducts a b ∧ NaNFreeProducts a c) ∧
      RowsOf a b (a.mul b) := by
  refine ⟨add_mul_rows a b c, ?_, ?_, rowsOf_mul a b⟩
  · rw [add_mul_rows, same_self_iff_naNFree, naNFree_add_iff, naNFree_mul_iff, naNFree_mul_iff]
  · -- both sides have the same products
    have hperm := mul_add_perm a b c
    rw [isEquivalent_iff_naNFree hperm, naNFree_iff_of_perm hperm, naNFree_add_iff,
      naNFree_mul_iff, naNFree_mul_iff]

/-- With a sum on the right, the two sides are not one list. -/
example :
    let a : MonomialSum Float := [⟨2, [], none⟩, ⟨3, [], none⟩]
    same (a.mul (add [⟨5, [], none⟩] [⟨7, [], none⟩]))
      (add (a.mul [⟨5, [], none⟩]) (a.mul [⟨7, [], none⟩])) = false := by
  with_unfolding_all rfl

end WeakForm.MonomialSum
