import WeakForm.Proofs.Attributes
import WeakForm.Proofs.IndexSets

/-!
# Expressions that are built

An expression is *built* when it comes out of the constructors, one applied to what
others have returned. Every node of such an expression is *canonical*: the constructor
of its operator, applied to its operands, returns the node itself. So each check of the
constructor holds of the operands, and no fold applies.

* `Built`, `Canonical`, `Built.canonical` — the two notions, and that one gives the other;
* `Canonical.sorted` — free indices are sorted;
* `IndicesOk`, `checkIndices_eq_ok`, `checkDirections_eq_ok`, `tensorAxes_nodup` — what the
  checks of indices say.
-/

namespace WeakForm.Expr

variable {R : Type}

/-! ## Checks of indices -/

/-- Fixed indices lie on their axes; free ones are new to the operand and to each other. -/
structure IndicesOk (a : Expr R) (is : List Index) (dims : List Nat) : Prop where
  distinct : Signature.Distinct is
  fresh : ∀ i, .free i ∈ is → a.free.has i = false
  bounded : ∀ p d, (.fixed p, d) ∈ is.zip dims → p < d

/-- A fixed entry lies on its axis, and the rest is in order. -/
theorem indicesOk_fixed_cons {a : Expr R} {p d : Nat} {is : List Index} {dims : List Nat} :
    IndicesOk a (.fixed p :: is) (d :: dims) ↔ p < d ∧ IndicesOk a is dims := by
  constructor
  · intro h
    exact ⟨h.bounded p d List.mem_cons_self, (List.pairwise_cons.mp h.distinct).2,
      fun i hi => h.fresh i (.tail _ hi), fun q d' hq => h.bounded q d' (.tail _ hq)⟩
  -- a fixed entry repeats nothing and is free nowhere
  · rintro ⟨hp, h⟩
    refine ⟨List.pairwise_cons.mpr ⟨fun _ _ _ hi => (nomatch hi), h.distinct⟩,
      fun i hi => ?_, fun q d' hq => ?_⟩
    · cases hi with
      | tail _ hi => exact h.fresh i hi
    · cases hq with
      | head => exact hp
      | tail _ hq => exact h.bounded q d' hq

/-- A free entry is new, occurs once, and the rest is in order. -/
theorem indicesOk_free_cons {a : Expr R} {i : IndexId} {d : Nat} {is : List Index}
    {dims : List Nat} : IndicesOk a (.free i :: is) (d :: dims) ↔
      a.free.has i = false ∧ .free i ∉ is ∧ IndicesOk a is dims := by
  constructor
  · intro h
    obtain ⟨hnew, hdistinct⟩ := List.pairwise_cons.mp h.distinct
    exact ⟨h.fresh i List.mem_cons_self, fun hi => hnew _ hi i rfl rfl, hdistinct,
      fun k hk => h.fresh k (.tail _ hk), fun q d' hq => h.bounded q d' (.tail _ hq)⟩
  · rintro ⟨hfresh, hnew, h⟩
    refine ⟨List.pairwise_cons.mpr ⟨?_, h.distinct⟩, fun k hk => ?_, fun q d' hq => ?_⟩
    · rintro j hj k hk rfl
      cases hk
      exact hnew hj
    · cases hk with
      | head => exact hfresh
      | tail _ hk => exact h.fresh k hk
    · cases hq with
      | tail _ hq => exact h.bounded q d' hq

/-- The check of an indexing passes just the indices that are as it wants them. -/
theorem checkIndices_eq_ok {a : Expr R} {is : List Index} {dims : List Nat} {axis : Nat}
    {seen : List IndexId} (hl : is.length = dims.length) :
    checkIndices a is dims axis seen = .ok () ↔
      IndicesOk a is dims ∧ ∀ i ∈ seen, .free i ∉ is := by
  -- index by index; `seen` are the free ones before
  induction is generalizing dims axis seen with
  | nil =>
    refine iff_of_true (by cases dims <;> rfl) ⟨⟨.nil, ?_, ?_⟩, ?_⟩
    all_goals simp
  | cons j is ih =>
    cases dims with
    | nil => cases hl
    | cons d dims =>
      have hlen : is.length = dims.length := Nat.succ.inj hl
      cases j with
      | fixed p =>
        by_cases hp : p < d
        -- positions on the axis are passed over, and others refused
        · rw [checkIndices, if_pos hp, indicesOk_fixed_cons, and_iff_right hp]
          simpa only [List.mem_cons, reduceCtorEq, false_or] using ih hlen
        · rw [checkIndices, if_neg hp, indicesOk_fixed_cons]
          exact ⟨fun h => (by cases h), fun h => absurd h.1.1 hp⟩
      | free i =>
        cases hseen : a.free.has i || seen.contains i with
        | true =>
          -- an entry that is not new is refused
          rw [checkIndices, hseen, indicesOk_free_cons]
          refine ⟨fun h => (by cases h), fun ⟨⟨hfresh, _⟩, hnew⟩ => ?_⟩
          rw [hfresh, Bool.false_or, List.contains_iff_mem] at hseen
          exact absurd List.mem_cons_self (hnew i hseen)
        | false =>
          obtain ⟨hfresh, hnew⟩ := Bool.or_eq_false_iff.mp hseen
          have hstep : checkIndices a (.free i :: is) (d :: dims) axis seen = .ok () ↔
              IndicesOk a is dims ∧ ∀ k ∈ i :: seen, .free k ∉ is := by
            rw [checkIndices, hseen]
            exact ih hlen
          have hnew : i ∉ seen := by simpa using hnew
          rw [hstep, indicesOk_free_cons, and_iff_right hfresh]
          constructor
          · rintro ⟨hok, h⟩
            obtain ⟨hi, h⟩ := List.forall_mem_cons.mp h
            refine ⟨⟨hi, hok⟩, fun k hk hmem => ?_⟩
            cases hmem with
            | head => exact hnew hk
            | tail _ hmem => exact h k hk hmem
          · rintro ⟨⟨hi, hok⟩, h⟩
            exact ⟨hok, List.forall_mem_cons.mpr ⟨hi, fun k hk hmem => h k hk (.tail _ hmem)⟩⟩

/-- Indices that are as the check wants them pass it, one for each axis. -/
theorem IndicesOk.checkIndices {a : Expr R} {is : List Index} (hl : is.length = a.rank)
    (hok : IndicesOk a is a.shape) : checkIndices a is a.shape 0 [] = .ok () :=
  (checkIndices_eq_ok hl).mpr ⟨hok, fun _ hi => absurd hi List.not_mem_nil⟩

/-- Fixed directions lie in the space, and free ones are new to the operand. -/
theorem checkDirections_eq_ok {a : Expr R} {gdim : Nat} {is : List Index} :
    checkDirections a gdim is = .ok () ↔
      (∀ p, .fixed p ∈ is → p < gdim) ∧ ∀ i, .free i ∈ is → a.free.has i = false := by
  induction is with
  | nil => simp [checkDirections]
  | cons j is ih =>
    cases j with
    | fixed p =>
      -- one entry after the other
      have hstep : checkDirections a gdim (.fixed p :: is) = .ok () ↔
          p < gdim ∧ checkDirections a gdim is = .ok () := by
        by_cases hp : p < gdim
        · rw [checkDirections, if_pos hp]
          exact (and_iff_right hp).symm
        · rw [checkDirections, if_neg hp]
          exact ⟨fun h => (by cases h), fun h => absurd h.1 hp⟩
      simp only [hstep, ih, List.mem_cons, Index.fixed.injEq, reduceCtorEq, false_or, and_assoc,
        forall_eq_or_imp]
    | free i =>
      have hstep : checkDirections a gdim (.free i :: is) = .ok () ↔
          a.free.has i = false ∧ checkDirections a gdim is = .ok () := by
        cases hi : a.free.has i with
        | false =>
          rw [checkDirections, hi]
          exact (and_iff_right rfl).symm
        | true =>
          rw [checkDirections, hi]
          exact ⟨fun h => (by cases h), fun h => absurd h.1.symm Bool.false_ne_true⟩
      simp only [hstep, ih, List.mem_cons, Index.free.injEq, reduceCtorEq, false_or,
        forall_eq_or_imp, and_left_comm]

theorem checkDirections_fixed {a : Expr R} {gdim : Nat} {is : List Index}
    (h : checkDirections a gdim is = .ok ()) : ∀ p, .fixed p ∈ is → p < gdim :=
  (checkDirections_eq_ok.mp h).1

theorem checkDirections_ok {a : Expr R} {gdim : Nat} {is : List Index}
    (h : checkDirections a gdim is = .ok ()) : ∀ i, .free i ∈ is → a.free.has i = false :=
  (checkDirections_eq_ok.mp h).2

/-- The axes of a tensor are different free indices. -/
theorem tensorAxes_nodup {a : Expr R} {is : List Index} {free : FreeIndices} {ids : List IndexId}
    (h : tensorAxes a is free = .ok ids) : ids.Nodup ∧ ∀ i ∈ ids, free.has i := by
  induction is generalizing free ids with
  | nil =>
    cases h
    exact ⟨.nil, by simp⟩
  | cons j is ih =>
    cases j with
    | fixed p => cases h
    | free i =>
      obtain ⟨hi, rest, hrest, rfl⟩ := tensorAxes_cons h
      obtain ⟨hnodup, hfree⟩ := ih hrest
      -- the indices of the other axes are free where this one is erased
      have hleft : ∀ k ∈ rest, k ≠ i ∧ free.has k := fun k hk => by
        obtain ⟨d, hd⟩ := FreeIndices.has_iff.mp (hfree k hk)
        obtain ⟨hmem, hne⟩ := FreeIndices.mem_erase.mp hd
        exact ⟨hne, FreeIndices.has_iff.mpr ⟨d, hmem⟩⟩
      refine ⟨List.nodup_cons.mpr ⟨fun hmem => (hleft i hmem).1 rfl, hnodup⟩, fun k hk => ?_⟩
      rcases List.mem_cons.mp hk with rfl | hk
      · exact hi
      · exact (hleft k hk).2

/-! ## Sorted free indices -/

section Sorted

variable [Scalar R] {a b r : Expr R}

/-- An indexing has an entry for each axis, and its entries are in order. -/
theorem index_ok {is : List Index} (h : a.index is = .ok r) :
    is.length = a.rank ∧ IndicesOk a is a.shape := by
  obtain ⟨hl, ⟨rfl, rfl⟩ | ⟨-, hc, -⟩⟩ := index_built h
  · exact ⟨hl, .nil, by simp, by simp⟩
  · exact ⟨hl, ((checkIndices_eq_ok hl).mp hc).1⟩

/-- Operators keep the free indices sorted. -/
theorem sorted_unary {op : UnaryOp} (ha : a.free.Sorted) (h : op.apply a = .ok r) :
    r.free.Sorted := by
  rw [(attributes_unary h).2]
  cases op with
  | indexSum i => exact FreeIndices.sorted_erase ha i
  | indexed is =>
    exact FreeIndices.sorted_union ha (Signature.sorted_indexedFree (index_ok h).2.distinct)
  | componentTensor is => exact FreeIndices.sorted_eraseAll ha is
  | spatialDerivative is =>
    exact FreeIndices.sorted_union ha (Signature.sorted_directionFree is _)
  | math | abs | restricted | grad | referenceGrad | averaged | labelled => exact ha

/-- So do operators on two operands. -/
theorem sorted_binary {op : BinaryOp} (ha : a.free.Sorted) (hb : b.free.Sorted)
    (h : op.apply a b = .ok r) : r.free.Sorted := by
  rw [(attributes_binary h).2]
  cases op with
  | sum | power => exact ha
  | product | division => exact FreeIndices.sorted_union ha hb

end Sorted

/-! ## Members of the free indices -/

end Expr

namespace UnaryOp

/-- The indices that an operator binds in its operand. -/
def bound : UnaryOp → List IndexId
  | indexSum i => [i]
  | componentTensor ids => ids
  | _ => []

/-- The indices that an operator is written with and does not bind. -/
def entries : UnaryOp → List Index
  | indexed is => is
  | spatialDerivative is => is
  | _ => []

/-- The free indices that an operator adds to those of its operand. -/
def introduced (op : UnaryOp) (a : Signature) : FreeIndices :=
  match op with
  | indexed is => Signature.indexedFree is a.shape
  | spatialDerivative is => Signature.directionFree is a.gdim
  | _ => []

/-- A free index that an operator adds is one of its entries. -/
theorem mem_entries_of_introduced {op : UnaryOp} {a : Signature} {x : FreeIndex}
    (h : x ∈ op.introduced a) : .free x.id ∈ op.entries := by
  cases op with
  | indexed is => exact (List.of_mem_zip (Signature.mem_indexedFree.mp h)).1
  | spatialDerivative is => exact (Signature.mem_directionFree.mp h).1
  | math | abs | indexSum | componentTensor | restricted | grad | referenceGrad | averaged
    | labelled => cases h

end UnaryOp

namespace Expr

section Members

variable [Scalar R] {a b r : Expr R} {x : FreeIndex} {i : IndexId}

/-- The free indices of what is built: those of the operand that are not bound, and those
that the operator adds. -/
theorem mem_free_unary {op : UnaryOp} (h : op.apply a = .ok r) :
    x ∈ r.free ↔ (x ∈ a.free ∧ x.id ∉ op.bound) ∨ x ∈ op.introduced a.signature := by
  rw [(attributes_unary h).2]
  cases op with
  | indexSum i =>
    show x ∈ a.free.erase i ↔ _
    simp [FreeIndices.mem_erase, UnaryOp.bound, UnaryOp.introduced]
  | componentTensor ids =>
    show x ∈ ids.foldl FreeIndices.erase a.free ↔ _
    simp [FreeIndices.mem_eraseAll, UnaryOp.bound, UnaryOp.introduced]
  -- a free entry was not free in the operand
  | indexed is =>
    have hcompat : FreeIndices.Compatible a.free (Signature.indexedFree is a.shape) := by
      refine FreeIndices.compatible_of_not_has fun y hy => ?_
      exact (index_ok h).2.fresh _ (List.of_mem_zip (Signature.mem_indexedFree.mp hy)).1
    show x ∈ a.free.union (Signature.indexedFree is a.shape) ↔ _
    rw [FreeIndices.mem_union hcompat]
    simp [UnaryOp.bound, UnaryOp.introduced, shape]
  -- nor was a free direction
  | spatialDerivative is =>
    have hcompat : FreeIndices.Compatible a.free
        (Signature.directionFree is a.signature.gdim) := by
      refine FreeIndices.compatible_of_not_has fun y hy => ?_
      have hmem := (Signature.mem_directionFree.mp hy).1
      rcases derivative_built h with ⟨rfl, -⟩ | ⟨-, d, -, hdir, -⟩
      · cases hmem
      · exact checkDirections_ok hdir _ hmem
    show x ∈ a.free.union (Signature.directionFree is a.signature.gdim) ↔ _
    rw [FreeIndices.mem_union hcompat]
    simp [UnaryOp.bound, UnaryOp.introduced]
  | math | abs | restricted | grad | referenceGrad | averaged | labelled =>
    simp [UnaryOp.free, UnaryOp.bound, UnaryOp.introduced, free]

/-- The free indices of what is built: those of both operands. -/
theorem mem_free_binary {op : BinaryOp} (ha : a.free.Sorted) (hb : b.free.Sorted)
    (h : op.apply a b = .ok r) : x ∈ r.free ↔ x ∈ a.free ∨ x ∈ b.free := by
  rw [(attributes_binary h).2]
  cases op with
  | sum =>
    obtain ⟨-, hfree, -⟩ := add_built h
    rw [← hfree, or_self]
    rfl
  | product =>
    obtain ⟨-, hconf, -⟩ := mul_built h
    exact FreeIndices.mem_union (FreeIndices.compatible_of_conflict? ha hb hconf)
  | division =>
    obtain ⟨-, -, hfree, -⟩ := div_built h
    have hcompat : FreeIndices.Compatible a.free b.free := by
      -- the divisor has no free index, or the dividend is zero over those of the divisor
      intro y hy z hz hid
      rcases hfree with hfb | ⟨-, hfa | heq⟩
      · rw [hfb] at hz
        cases hz
      · rw [hfa] at hy
        cases hy
      · rw [← heq] at hz
        rw [ha.eq_of_id hy hz hid]
    exact FreeIndices.mem_union hcompat
  | power =>
    obtain ⟨-, -, hfree, -⟩ := pow_built h
    rw [hfree]
    simp [BinaryOp.free, free]

/-- An index that is not bound stays free. -/
theorem has_of_operand {op : UnaryOp} (h : op.apply a = .ok r) (hi : a.free.has i)
    (hb : i ∉ op.bound) : r.free.has i := by
  obtain ⟨d, hd⟩ := FreeIndices.has_iff.mp hi
  exact FreeIndices.has_iff.mpr ⟨d, (mem_free_unary h).mpr (.inl ⟨hd, hb⟩)⟩

/-- The free indices of either operand are free. -/
theorem has_of_left {op : BinaryOp} (ha : a.free.Sorted) (hb : b.free.Sorted)
    (h : op.apply a b = .ok r) (hi : a.free.has i) : r.free.has i := by
  obtain ⟨d, hd⟩ := FreeIndices.has_iff.mp hi
  exact FreeIndices.has_iff.mpr ⟨d, (mem_free_binary ha hb h).mpr (.inl hd)⟩

/-- The free indices of the second operand, likewise. -/
theorem has_of_right {op : BinaryOp} (ha : a.free.Sorted) (hb : b.free.Sorted)
    (h : op.apply a b = .ok r) (hi : b.free.has i) : r.free.has i := by
  obtain ⟨d, hd⟩ := FreeIndices.has_iff.mp hi
  exact FreeIndices.has_iff.mpr ⟨d, (mem_free_binary ha hb h).mpr (.inr hd)⟩

/-- A free index that an operator is written with is free in what it builds. -/
theorem has_of_entry {op : UnaryOp} (h : op.apply a = .ok r) (hi : .free i ∈ op.entries) :
    r.free.has i := by
  rw [FreeIndices.has_iff]
  cases op with
  | indexed is =>
    obtain ⟨hl, -⟩ := index_ok h
    -- each entry stands on an axis
    have hfst : (is.zip a.shape).map Prod.fst = is := List.map_fst_zip (Nat.le_of_eq hl)
    have hmem : Index.free i ∈ (is.zip a.shape).map Prod.fst := by
      rw [hfst]
      exact hi
    obtain ⟨⟨j, d⟩, hzip, rfl⟩ := List.mem_map.mp hmem
    exact ⟨d, (mem_free_unary h).mpr (.inr (Signature.mem_indexedFree.mpr hzip))⟩
  | spatialDerivative is =>
    exact ⟨_, (mem_free_unary h).mpr (.inr (Signature.mem_directionFree.mpr ⟨hi, rfl⟩))⟩
  | math | abs | indexSum | componentTensor | restricted | grad | referenceGrad | averaged
    | labelled => cases hi

end Members

/-! ## Canonical expressions -/

/-- A literal that is not zero, or a zero with sorted free indices. -/
def CanonicalTerminal [Scalar R] : Terminal R → Prop
  | .literal v => v.isZero = false
  | .zero _ free => free.Sorted
  | .argument _ | .coefficient _ | .geometry _ => True

/-- Every node is what the constructor of its operator returns for its operands. -/
inductive Canonical [Scalar R] : Expr R → Prop
  | leaf {t : Terminal R} (h : CanonicalTerminal t) : Canonical (leaf t)
  | unary {op : UnaryOp} {a : Expr R} (ha : Canonical a) (h : op.apply a = .ok (unary op a)) :
      Canonical (unary op a)
  | binary {op : BinaryOp} {a b : Expr R} (ha : Canonical a) (hb : Canonical b)
      (h : op.apply a b = .ok (binary op a b)) : Canonical (binary op a b)
  | listTensor {items : List (Expr R)} (hi : ∀ item ∈ items, Canonical item)
      (h : stack items = .ok (listTensor items)) : Canonical (listTensor items)

/-- What comes out of the constructors. -/
inductive Built [Scalar R] : Expr R → Prop
  | argument (a : Argument) : Built (argument a)
  | coefficient (c : Coefficient) : Built (coefficient c)
  | geometry (g : Geometry) : Built (geometry g)
  | literal (v : Literal R) : Built (literal v)
  | zero (shape : List Nat) : Built (zero shape)
  | zeroOver {shape : List Nat} {free : FreeIndices} {r : Expr R}
      (h : zeroOver shape free = .ok r) : Built r
  | unary {op : UnaryOp} {a r : Expr R} (ha : Built a) (h : op.apply a = .ok r) : Built r
  | binary {op : BinaryOp} {a b r : Expr R} (ha : Built a) (hb : Built b)
      (h : op.apply a b = .ok r) : Built r
  | stack {items : List (Expr R)} {r : Expr R} (hi : ∀ item ∈ items, Built item)
      (h : stack items = .ok r) : Built r

section Canonical

variable [Scalar R] {a b r : Expr R}

/-- The free indices of a canonical expression are sorted. -/
theorem Canonical.sorted {e : Expr R} (h : Canonical e) : e.free.Sorted := by
  induction h with
  | @leaf t ht =>
    rw [free_leaf]
    -- a zero brings its free indices along, sorted
    cases t with
    | zero shape free => exact ht
    | argument | coefficient | geometry | literal => exact FreeIndices.sorted_nil
  | unary _ h ih => exact sorted_unary ih h
  | binary _ _ h iha ihb => exact sorted_binary iha ihb h
  | listTensor _ h ih =>
    -- items have the free indices of the first one
    obtain ⟨first, rest, rfl, -, -⟩ := stack_built h
    rw [(attributes_stack h).2]
    exact ih first List.mem_cons_self

/-- Literals are canonical. -/
theorem canonical_literal (v : Literal R) : Canonical (literal v) := by
  unfold Expr.literal
  split
  · exact .leaf FreeIndices.sorted_nil
  · next h =>
    have hv : v.isZero = false := by simpa using h
    exact .leaf hv

/-- A zero is canonical if its free indices are sorted. -/
theorem canonical_zero {shape : List Nat} {free : FreeIndices}
    (h : (leaf (.zero shape free) : Expr R).free.Sorted) :
    Canonical (leaf (.zero shape free) : Expr R) := by
  rw [free_leaf] at h
  exact .leaf h

/-- The constructors of one operand return canonical expressions. -/
theorem canonical_unary {op : UnaryOp} (ha : Canonical a) (h : op.apply a = .ok r) :
    Canonical r := by
  -- whatever is built is zero over the operand's signature, the node itself, a literal or an
  -- operand
  have hzero : r = zeroOf op a → Canonical r := by
    rintro rfl
    exact canonical_zero (sorted_unary ha.sorted h)
  have hnode : r = unary op a → Canonical r := by
    rintro rfl
    exact .unary ha h
  have hzeroOr : ZeroOr op a r → Canonical r := fun hr => by
    cases hr with
    | zero => exact hzero rfl
    | node => exact hnode rfl
  have hderived : Derived op a r → Canonical r := fun hr => by
    cases hr with
    | zero => exact hzero rfl
    | node => exact hnode rfl
  cases op with
  | math f =>
    cases (math_built h).2 with
    | literal => exact canonical_literal _
    | node => exact hnode rfl
  | abs =>
    cases abs_built h with
    | zero => exact ha
    | literal => exact canonical_literal _
    | node => exact hnode rfl
  | indexSum i => exact hzeroOr (sumOver_built h).2
  | indexed is =>
    obtain ⟨-, ⟨-, rfl⟩ | ⟨-, -, hr⟩⟩ := index_built h
    · exact ha
    · exact hzeroOr hr
  | componentTensor ids =>
    obtain ⟨-, ⟨-, rfl⟩ | ⟨-, -, hr⟩⟩ := tensor_ids_built h
    · exact ha
    · exact hzeroOr hr
  | restricted side =>
    obtain rfl : a.restrict side = r := Except.ok.inj h
    by_cases hc : a.isConstantValue
    · rw [restrict, if_pos hc]
      exact ha
    · exact hnode (if_neg hc)
  | grad => exact hderived (gradient_built h).2
  | referenceGrad => exact hderived (referenceGradient_built h).2
  | spatialDerivative is =>
    rcases derivative_built h with ⟨-, rfl⟩ | ⟨-, -, -, -, hr⟩
    · exact ha
    · exact hderived hr
  | averaged region =>
    obtain rfl : a.average region = r := Except.ok.inj h
    by_cases hc : a.isConstantValue
    · rw [average, if_pos hc]
      exact ha
    · exact hnode (if_neg hc)
  | labelled number => exact hnode (Except.ok.inj h).symm

/-- The constructors of two operands return canonical expressions. -/
theorem canonical_binary {op : BinaryOp} (ha : Canonical a) (hb : Canonical b)
    (h : op.apply a b = .ok r) : Canonical r := by
  -- as for one operand
  have hzero : r = zeroOf₂ op a b → Canonical r := by
    rintro rfl
    exact canonical_zero (sorted_binary ha.sorted hb.sorted h)
  have hnode : r = binary op a b → Canonical r := by
    rintro rfl
    exact .binary ha hb h
  cases op with
  | sum =>
    cases (add_built h).2.2 with
    | zeroLeft => exact hb
    | zeroRight => exact ha
    | literals => exact canonical_literal _
    | node => exact hnode rfl
  | product =>
    cases (mul_built h).2.2 with
    | zero => exact hzero rfl
    | oneLeft => exact hb
    | oneRight => exact ha
    | literals => exact canonical_literal _
    | node => exact hnode rfl
  | division =>
    cases (div_built h).2.2.2 with
    | zero => exact hzero rfl
    | one => exact ha
    | literals => exact canonical_literal _
    | node => exact hnode rfl
  | power =>
    cases (pow_built h).2.2.2 with
    | one => exact ha
    | literals => exact canonical_literal _
    | node => exact hnode rfl

/-- A list tensor of canonical items is canonical. -/
theorem canonical_stack {items : List (Expr R)} (hi : ∀ item ∈ items, Canonical item)
    (h : stack items = .ok r) : Canonical r := by
  obtain ⟨first, rest, rfl, -, hr⟩ := stack_built h
  cases hr with
  | zero => exact .leaf (hi first List.mem_cons_self).sorted
  | node => exact .listTensor hi h

/-- **What is built is canonical.** -/
theorem Built.canonical {e : Expr R} (h : Built e) : Canonical e := by
  -- constructor by constructor
  induction h with
  | argument | coefficient | geometry => exact .leaf trivial
  | literal v => exact canonical_literal v
  | zero shape => exact .leaf FreeIndices.sorted_nil
  | @zeroOver shape free r h =>
    unfold Expr.zeroOver at h
    split at h
    · next hs =>
      cases h
      exact .leaf hs
    · cases h
  | unary _ h ih => exact canonical_unary ih h
  | binary _ _ h iha ihb => exact canonical_binary iha ihb h
  | stack _ h ih => exact canonical_stack ih h

end Canonical

end WeakForm.Expr
