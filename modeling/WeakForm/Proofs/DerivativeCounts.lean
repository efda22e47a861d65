import WeakForm.Proofs.Outcome
import WeakForm.Table.Basis

/-!
# Counts of derivatives

Derivatives are counted along each direction, in a byte. A build that checks for overflow counts
up to 255 and fails beyond; one that does not counts modulo 256, and its counts do not tell a
terminal from one with 256 derivatives more.

* `countDerivative_eq_ok` — one more derivative;
* `tally`, `foldlM_countDerivative` — all directions, from any counts on;
* `derivativeCounts_eq_ok` — the counts of a list of directions;
* `derivativeCounts_overflow` — when a build with checks fails;
* `derivativeCounts_perm`, `derivativeCounts_wrapping` — lists that are counted alike.
-/

namespace WeakForm

variable {R : Type} {overflow : Overflow} {directions directions' : List Nat}
  {counts counts' : List UInt8} {d dim : Nat}

/-- One derivative is added to the count of its direction, if that is not at its end. -/
theorem countDerivative_eq_ok : (countDerivative overflow counts d : Checked R _) = .ok counts' ↔
    ∃ n, counts[d]? = some n ∧ (overflow = .checked → n ≠ 255) ∧
      counts' = counts.set d (n + 1) := by
  unfold countDerivative
  cases counts[d]? with
  | none => simp
  | some n =>
    by_cases h : overflow = .checked ∧ n = 255
    · simp [h.1, h.2]
    · simp only [if_neg h, Except.ok.injEq, Option.some.injEq, exists_eq_left']
      exact ⟨fun heq => ⟨fun hc hn => h ⟨hc, hn⟩, heq.symm⟩, fun heq => heq.2.symm⟩

/-- The counts with those of further directions, modulo 256. -/
def tally (counts : List UInt8) (directions : List Nat) : List UInt8 :=
  counts.mapIdx fun d n => n + .ofNat (directions.count d)

theorem getElem?_tally :
    (tally counts directions)[d]? = counts[d]?.map (· + .ofNat (directions.count d)) := by
  rw [tally, List.getElem?_mapIdx]

/-- Without directions, the counts stay. -/
@[simp] theorem tally_nil : tally counts [] = counts := by
  refine List.ext_getElem? fun d => ?_
  rw [getElem?_tally]
  cases counts[d]? <;> simp

/-- Adding one derivative first makes no difference. -/
theorem tally_set {n : UInt8} (hn : counts[d]? = some n) :
    tally (counts.set d (n + 1)) directions = tally counts (d :: directions) := by
  obtain ⟨hlt, -⟩ := List.getElem?_eq_some_iff.mp hn
  refine List.ext_getElem? fun k => ?_
  rw [getElem?_tally, getElem?_tally, List.count_cons]
  by_cases hk : d = k
  -- only the counted direction differs
  · subst hk
    rw [List.getElem?_set_self hlt, hn, beq_self_eq_true, if_pos rfl, UInt8.ofNat_add]
    simp [UInt8.add_assoc, UInt8.add_comm 1]
  · rw [List.getElem?_set_ne hk, beq_eq_false_iff_ne.mpr hk, if_neg Bool.false_ne_true,
      Nat.add_zero]

/-- No count passes its range. -/
def Countable (counts : List UInt8) (directions : List Nat) : Prop :=
  ∀ d n, counts[d]? = some n → n.toNat + directions.count d < 256

theorem countable_nil : Countable counts [] :=
  fun _ n _ => n.toNat_lt

/-- The range is kept with one derivative more if it has room for that one. -/
theorem countable_cons {n : UInt8} (hn : counts[d]? = some n) :
    Countable counts (d :: directions) ↔ n ≠ 255 ∧ Countable (counts.set d (n + 1)) directions := by
  obtain ⟨hlt, -⟩ := List.getElem?_eq_some_iff.mp hn
  have hsucc : n ≠ 255 → (n + 1).toNat = n.toNat + 1 := fun hne => by
    have hne : n.toNat ≠ 255 := fun h => hne (UInt8.toNat_inj.mp h)
    have := n.toNat_lt
    rw [UInt8.toNat_add]
    exact Nat.mod_eq_of_lt (by simp; omega)
  constructor
  · intro h
    -- the direction itself takes one of what is left
    have hroom := h d n hn
    rw [List.count_cons_self] at hroom
    have hne : n ≠ 255 := by
      rintro rfl
      have h255 : UInt8.toNat 255 = 255 := rfl
      omega
    refine ⟨hne, fun k m hm => ?_⟩
    by_cases hk : d = k
    · subst hk
      rw [List.getElem?_set_self hlt, Option.some.injEq] at hm
      rw [← hm, hsucc hne]
      omega
    · rw [List.getElem?_set_ne hk] at hm
      have := h k m hm
      rwa [List.count_cons_of_ne hk] at this
  · rintro ⟨hne, h⟩ k m hm
    by_cases hk : d = k
    · subst hk
      obtain rfl : n = m := Option.some.inj (hn.symm.trans hm)
      have := h d (n + 1) (List.getElem?_set_self hlt)
      rw [hsucc hne] at this
      rw [List.count_cons_self]
      omega
    · rw [List.count_cons_of_ne hk]
      exact h k m (by rwa [List.getElem?_set_ne hk])

/-- Counting goes through if every direction has a count, and with checks if no count passes its
range. It gives the counts modulo 256. -/
theorem foldlM_countDerivative :
    (directions.foldlM (countDerivative overflow) counts : Checked R _) = .ok counts' ↔
      (∀ d ∈ directions, d < counts.length) ∧
        (overflow = .checked → Countable counts directions) ∧
        counts' = tally counts directions := by
  induction directions generalizing counts with
  | nil =>
    rw [List.foldlM_nil, tally_nil]
    constructor
    · intro h
      exact ⟨fun d hd => absurd hd List.not_mem_nil, fun _ => countable_nil, (Except.ok.inj h).symm⟩
    · rintro ⟨-, -, rfl⟩
      rfl
  | cons d directions ih =>
    rw [List.foldlM_cons, bind_eq_ok]
    simp only [countDerivative_eq_ok, List.forall_mem_cons]
    constructor
    · rintro ⟨counts₁, ⟨n, hn, hroom, rfl⟩, h⟩
      -- the first direction is counted, then the rest on the new counts
      obtain ⟨hlt, hcountable, rfl⟩ := ih.mp h
      rw [List.length_set] at hlt
      refine ⟨⟨(List.getElem?_eq_some_iff.mp hn).1, hlt⟩, fun hchecked => ?_, tally_set hn⟩
      exact (countable_cons hn).mpr ⟨hroom hchecked, hcountable hchecked⟩
    · rintro ⟨⟨hd, hlt⟩, hcountable, rfl⟩
      have hn := List.getElem?_eq_getElem hd
      refine ⟨_, ⟨_, hn, fun hchecked => ?_, rfl⟩, ih.mpr ⟨?_, fun hchecked => ?_, ?_⟩⟩
      · exact ((countable_cons hn).mp (hcountable hchecked)).1
      · rwa [List.length_set]
      · exact ((countable_cons hn).mp (hcountable hchecked)).2
      · exact (tally_set hn).symm

/-- From zero, the counts are the numbers of directions, each in a byte. -/
theorem map_tally_replicate : (tally (List.replicate dim 0) directions).map UInt8.toNat =
    (List.range dim).map fun d => directions.count d % 256 := by
  refine List.ext_getElem? fun d => ?_
  rw [List.getElem?_map, getElem?_tally, List.getElem?_replicate, List.getElem?_map]
  by_cases hd : d < dim
  · rw [if_pos hd, List.getElem?_range hd]
    simp
  · rw [if_neg hd, List.getElem?_eq_none (by simpa using hd)]
    rfl

/-- From zero, counts stay in range as long as no direction comes 256 times. -/
theorem countable_replicate (h : ∀ d ∈ directions, d < dim) :
    Countable (List.replicate dim 0) directions ↔ ∀ d, directions.count d < 256 := by
  constructor
  · intro hcount d
    -- a direction outside the domain is not counted
    by_cases hd : d ∈ directions
    · have := hcount d 0 (by rw [List.getElem?_replicate, if_pos (h d hd)])
      simpa using this
    · rw [List.count_eq_zero.mpr hd]
      decide
  · intro hcount d n hn
    rw [List.getElem?_replicate] at hn
    split at hn
    · cases hn
      simpa using hcount d
    · cases hn

/-- **The counts of a list of directions** are taken modulo 256, by a build with checks only where
that changes none of them. -/
theorem derivativeCounts_eq_ok {counts : List Nat} :
    (derivativeCounts directions dim overflow : Checked R _) = .ok counts ↔
      (∀ d ∈ directions, d < dim) ∧ (overflow = .checked → ∀ d, directions.count d < 256) ∧
        counts = (List.range dim).map fun d => directions.count d % 256 := by
  rw [derivativeCounts, bind_eq_ok]
  simp only [foldlM_countDerivative, List.length_replicate]
  constructor
  · rintro ⟨_, ⟨hlt, hcountable, rfl⟩, h⟩
    refine ⟨hlt, fun hchecked => (countable_replicate hlt).mp (hcountable hchecked), ?_⟩
    rw [← map_tally_replicate]
    exact (Except.ok.inj h).symm
  · rintro ⟨hlt, hcount, rfl⟩
    refine ⟨_, ⟨hlt, fun hchecked => ?_, rfl⟩, congrArg Except.ok map_tally_replicate⟩
    exact (countable_replicate hlt).mpr (hcount hchecked)

/-- Without directions, nothing is counted. -/
@[simp] theorem derivativeCounts_nil :
    (derivativeCounts [] dim overflow : Checked R _) = .ok (List.replicate dim 0) := by
  rw [derivativeCounts, List.foldlM_nil]
  exact congrArg Except.ok List.map_replicate

/-- A direction that the domain has is counted, or its count is at the end of its range. -/
theorem countDerivative_error {b : Breach R} (hd : d < counts.length)
    (h : countDerivative overflow counts d = .error b) : b = .overflow := by
  rw [countDerivative, List.getElem?_eq_getElem hd] at h
  dsimp only at h
  split at h
  · exact (Except.error.inj h).symm
  · cases h

/-- Whatever goes wrong in counting the domain's directions is an overflow. -/
theorem foldlM_countDerivative_error {b : Breach R} (hd : ∀ d ∈ directions, d < counts.length)
    (h : (directions.foldlM (countDerivative overflow) counts : Checked R _) = .error b) :
    b = .overflow := by
  induction directions generalizing counts with
  | nil => cases h
  | cons d directions ih =>
    obtain ⟨hd, hlt⟩ := List.forall_mem_cons.mp hd
    rw [List.foldlM_cons] at h
    rcases bind_eq_error.mp h with h | ⟨counts₁, hcounts, h⟩
    · exact countDerivative_error hd h
    · -- counting keeps the number of counts
      obtain ⟨n, -, -, rfl⟩ := countDerivative_eq_ok.mp hcounts
      exact ih (by rwa [List.length_set]) h

/-- **A build with checks ends with an overflow** where some count passes its range. -/
theorem derivativeCounts_overflow (h : ∀ d ∈ directions, d < dim) :
    (derivativeCounts directions dim : Checked R _) = .error .overflow ↔
      ∃ d, 256 ≤ directions.count d := by
  cases hc : (derivativeCounts directions dim : Checked R _) with
  | ok counts =>
    obtain ⟨-, hcount, -⟩ := derivativeCounts_eq_ok.mp hc
    simp [hcount rfl]
  | error b =>
    have hb : b = .overflow := by
      rw [derivativeCounts, bind_eq_error] at hc
      rcases hc with hc | ⟨counts, -, hc⟩
      · exact foldlM_countDerivative_error (by simpa using h) hc
      · cases hc
    refine iff_of_true (congrArg _ hb) ?_
    -- if all counts were in range, there would be no error
    by_contra hcount
    have hok : (derivativeCounts directions dim : Checked R _) = .ok _ :=
      derivativeCounts_eq_ok.mpr ⟨h, fun _ d => Nat.not_le.mp fun hle => hcount ⟨d, hle⟩, rfl⟩
    cases hc.symm.trans hok

/-- The order of the directions plays no part. -/
theorem derivativeCounts_perm (h : directions.Perm directions') {counts : List Nat} :
    (derivativeCounts directions dim overflow : Checked R _) = .ok counts ↔
      (derivativeCounts directions' dim overflow : Checked R _) = .ok counts := by
  simp only [derivativeCounts_eq_ok, h.mem_iff, h.count_eq]

/-- **A build without checks does not see 256 derivatives more** along a direction. -/
theorem derivativeCounts_wrapping (hd : d < dim) {counts : List Nat} :
    (derivativeCounts (List.replicate 256 d ++ directions) dim .wrapping : Checked R _) =
        .ok counts ↔
      (derivativeCounts directions dim .wrapping : Checked R _) = .ok counts := by
  have hmem : (∀ k ∈ List.replicate 256 d ++ directions, k < dim) ↔ ∀ k ∈ directions, k < dim := by
    simp only [List.forall_mem_append, List.mem_replicate]
    exact and_iff_right fun k hk => hk.2 ▸ hd
  -- the repeated direction adds a whole turn of the byte
  have hcount : ∀ k, (List.replicate 256 d ++ directions).count k % 256 =
      directions.count k % 256 := by
    intro k
    rw [List.count_append, List.count_replicate]
    split
    · exact Nat.add_mod_left 256 _
    · rw [Nat.zero_add]
  simp only [derivativeCounts_eq_ok, hmem, hcount, reduceCtorEq, false_implies]

end WeakForm
