import Mathlib.Algebra.BigOperators.Group.Finset.Sigma
import WeakForm.Proofs.Meaning

/-!
# Sums over the positions of indices

A summation over several indices runs over all positions of each. Where no index occurs
twice its order does not matter, a product of two summations over different indices is one
summation over both, and a homomorphism can be taken inside. What is summed depends on the
positions of some indices only; those of all others stay what they are.

* `Env.sumOver` — the summation;
* `Env.Reads` — the indices that a value depends on;
* `sumOver_perm` — the order of summation;
* `sumOver_mul` — a product of summations;
* `sumOver_bind` — indices that are bound, and not summed over.
-/

namespace WeakForm.Env

variable {A : Type} [CommRing A] {f g : Env → A} {xs ys : FreeIndices} {σ τ : Env}
  {P Q : IndexId → Prop}

/-- The sum over all positions of given indices. -/
def sumOver : FreeIndices → (Env → A) → Env → A
  | [], f, σ => f σ
  | x :: xs, f, σ => ∑ j ∈ Finset.range x.dim, sumOver xs f (σ.bind [x.id] [j])

/-- The value depends on the positions of the indices in `P` only. -/
def Reads (f : Env → A) (P : IndexId → Prop) : Prop :=
  ∀ σ τ : Env, (∀ i, P i → σ i = τ i) → f σ = f τ

/-! ## Positions of single indices -/

/-- Binding one index changes the environment there only. -/
theorem bind_single (σ : Env) (i j : IndexId) (p : Nat) :
    σ.bind [i] [p] j = if j = i then p else σ j := by
  by_cases h : j = i
  · rw [if_pos h, h, bind_self]
  · rw [if_neg h, bind_of_ne σ p h]

/-- Different indices are bound in any order. -/
theorem bind_swap {i j : IndexId} (h : i ≠ j) (p q : Nat) :
    (σ.bind [i] [p]).bind [j] [q] = (σ.bind [j] [q]).bind [i] [p] := by
  funext k
  simp only [bind_single]
  by_cases hi : k = i
  · have hj : k ≠ j := fun hj => h (hi.symm.trans hj)
    simp [hi, h]
  · simp [hi]

/-- An index that is not among others is bound before or after them. -/
theorem bind_comm {ids : List IndexId} {i : IndexId} (h : i ∉ ids) (positions : List Nat)
    (p : Nat) :
    (σ.bind ids positions).bind [i] [p] = (σ.bind [i] [p]).bind ids positions := by
  funext k
  rw [bind_single]
  by_cases hk : k = i
  · rw [if_pos hk, hk, bind_of_not_mem h, bind_self]
  · rw [if_neg hk, bind, bind, bind_of_ne σ p hk]

/-! ## What is summed -/

theorem sumOver_nil (f : Env → A) (σ : Env) : sumOver [] f σ = f σ :=
  rfl

theorem sumOver_cons (x : FreeIndex) (xs : FreeIndices) (f : Env → A) (σ : Env) :
    sumOver (x :: xs) f σ = ∑ j ∈ Finset.range x.dim, sumOver xs f (σ.bind [x.id] [j]) :=
  rfl

/-- A sum over two lists is the sum of sums. -/
theorem sumOver_append (xs ys : FreeIndices) (f : Env → A) (σ : Env) :
    sumOver (xs ++ ys) f σ = sumOver xs (sumOver ys f) σ := by
  induction xs generalizing σ with
  | nil => rfl
  | cons x xs ih =>
    rw [List.cons_append, sumOver_cons, sumOver_cons]
    exact Finset.sum_congr rfl fun j _ => ih _

/-- The terms are at positions that differ from the outer ones in the summed indices only. -/
theorem sumOver_congr
    (h : ∀ τ : Env, (∀ i, (∀ x ∈ xs, x.id ≠ i) → τ i = σ i) → f τ = g τ) :
    sumOver xs f σ = sumOver xs g σ := by
  induction xs generalizing σ with
  | nil => exact h σ fun i _ => rfl
  | cons x xs ih =>
    rw [sumOver_cons, sumOver_cons]
    refine Finset.sum_congr rfl fun j _ => ih fun τ hτ => h τ fun i hi => ?_
    have hx : i ≠ x.id := fun heq => hi x List.mem_cons_self heq.symm
    rw [hτ i fun y hy => hi y (List.mem_cons_of_mem x hy), bind_of_ne σ j hx]

/-- A homomorphism can be taken inside. -/
theorem map_sumOver (φ : A →+ A) (xs : FreeIndices) (f : Env → A) (σ : Env) :
    φ (sumOver xs f σ) = sumOver xs (fun τ => φ (f τ)) σ := by
  induction xs generalizing σ with
  | nil => rfl
  | cons x xs ih =>
    rw [sumOver_cons, sumOver_cons, map_sum]
    exact Finset.sum_congr rfl fun j _ => ih _

theorem mul_sumOver (a : A) (xs : FreeIndices) (f : Env → A) (σ : Env) :
    a * sumOver xs f σ = sumOver xs (fun τ => a * f τ) σ :=
  map_sumOver (AddMonoidHom.mulLeft a) xs f σ

/-! ## What is read -/

omit [CommRing A] in
/-- What reads only the indices of a set reads only those of a larger set. -/
theorem Reads.mono (h : Reads f P) (hPQ : ∀ i, P i → Q i) : Reads f Q :=
  fun σ τ hστ => h σ τ fun i hi => hστ i (hPQ i hi)

omit [CommRing A] in
/-- The position of an index that is not read does not matter. -/
theorem Reads.bind (h : Reads f P) {i : IndexId} (hi : ¬P i) (p : Nat) :
    f (σ.bind [i] [p]) = f σ :=
  h _ _ fun _ hj => bind_of_ne σ p fun heq => hi (heq ▸ hj)

/-- A sum over indices reads no more than what is summed. -/
theorem Reads.sumOver (h : Reads f P) (xs : FreeIndices) : Reads (sumOver xs f) P := by
  induction xs with
  | nil => exact h
  | cons x xs ih =>
    intro σ τ hστ
    rw [sumOver_cons, sumOver_cons]
    refine Finset.sum_congr rfl fun j _ => ih _ _ fun i hi => ?_
    rw [bind_single, bind_single, hστ i hi]

/-- A product of summations is one over the indices of both, where none of them is read by
the other factor. -/
theorem sumOver_mul (hf : Reads f P) (hg : Reads g Q) (hys : ∀ y ∈ ys, ¬P y.id)
    (hxs : ∀ x ∈ xs, ¬Q x.id) :
    sumOver xs f σ * sumOver ys g σ = sumOver (xs ++ ys) (fun τ => f τ * g τ) σ := by
  rw [sumOver_append]
  induction xs generalizing σ with
  | nil =>
    rw [sumOver_nil, sumOver_nil, mul_sumOver]
    refine sumOver_congr fun τ hτ => ?_
    rw [hf τ σ fun i hi => hτ i fun y hy heq => hys y hy (heq ▸ hi)]
  | cons x xs ih =>
    rw [sumOver_cons, sumOver_cons, Finset.sum_mul]
    refine Finset.sum_congr rfl fun j _ => ?_
    -- the second factor does not read the position
    rw [← (hg.sumOver ys).bind (hxs x List.mem_cons_self) j]
    exact ih fun y hy => hxs y (List.mem_cons_of_mem x hy)

/-! ## The order of summation -/

/-- **The order of summation does not matter** where no index occurs twice. -/
theorem sumOver_perm (h : xs.Perm ys) (hnodup : (xs.map (·.id)).Nodup) :
    sumOver xs f σ = sumOver ys f σ := by
  induction h generalizing σ with
  | nil => rfl
  | cons x _ ih =>
    rw [List.map_cons, List.nodup_cons] at hnodup
    rw [sumOver_cons, sumOver_cons]
    -- the same index is summed first
    exact Finset.sum_congr rfl fun j _ => ih hnodup.2
  | swap x y zs =>
    rw [List.map_cons, List.map_cons, List.nodup_cons, List.mem_cons, not_or] at hnodup
    have hne : y.id ≠ x.id := hnodup.1.1
    simp only [sumOver_cons]
    rw [Finset.sum_comm]
    -- the two innermost sums are exchanged, and then the two bindings
    refine Finset.sum_congr rfl fun i _ => Finset.sum_congr rfl fun j _ => ?_
    rw [bind_swap hne]
  | trans hxy _ ihx ihy =>
    -- duplicates are ruled out for the list in the middle too
    have hnodup' := (hxy.map (·.id)).nodup_iff.mp hnodup
    exact (ihx hnodup).trans (ihy hnodup')

/-- Indices that are not summed over are bound outside or inside. -/
theorem sumOver_bind {ids : List IndexId} (h : ∀ x ∈ xs, x.id ∉ ids) (positions : List Nat) :
    sumOver xs f (σ.bind ids positions) = sumOver xs (fun τ => f (τ.bind ids positions)) σ := by
  induction xs generalizing σ with
  | nil => rfl
  | cons x xs ih =>
    rw [sumOver_cons, sumOver_cons]
    refine Finset.sum_congr rfl fun j _ => ?_
    rw [bind_comm (h x List.mem_cons_self)]
    exact ih fun y hy => h y (List.mem_cons_of_mem x hy)

end WeakForm.Env
