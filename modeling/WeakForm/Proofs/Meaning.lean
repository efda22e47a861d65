import WeakForm.Proofs.Chains
import WeakForm.Proofs.Folding

/-!
# The meaning of an operator

The value of a node is a function of the values of its operands. Here that function is
named, operator by operator, so that one argument serves for all of them: what is built
has the meaning of its operator, and the meaning depends on the operands at components of
their rank, and at positions that differ from the outer ones in the bound indices only.

* `UnaryOp.meaning`, `BinaryOp.meaning` — the functions;
* `value_unary_apply`, `value_binary_apply` — what is built has the meaning;
* `meaning_mapIndices`, `meaning_congr`, `meaning_congr₂`, `value_stack_congr` — what the
  meaning depends on.
-/

namespace WeakForm

/-- An operator computes with the values of its operand. Modifiers other than indexing
do not. -/
def UnaryOp.Computes (op : UnaryOp) : Prop :=
  op.isModifier → ∃ is, op = .indexed is

/-- The value of an operator over an operand with values `f`. -/
def UnaryOp.meaning {R A : Type} [CommRing A] (M : Model R A) (op : UnaryOp) (a : Signature)
    (f : List Nat → Env → A) (c : List Nat) (σ : Env) : A :=
  match op with
  | math g => M.math g (f c σ)
  | abs => M.abs (f c σ)
  | indexSum i => ∑ j ∈ Finset.range ((a.free.dim? i).getD 0), f c (σ.bind [i] [j])
  | indexed is => f (is.map σ.resolve) σ
  | componentTensor ids => f [] (σ.bind ids c)
  | restricted _ | grad | referenceGrad | spatialDerivative _ | averaged _ | labelled _ => f c σ

/-- The value of an operator over operands of given ranks with values `f` and `g`. -/
def BinaryOp.meaning {R A : Type} [CommRing A] (M : Model R A) (op : BinaryOp) (m n : Nat)
    (f g : List Nat → Env → A) (c : List Nat) (σ : Env) : A :=
  match op with
  | sum => f c σ + g c σ
  | product => f (c.take m) σ * g (c.take n) σ
  | division => M.quotient (f c σ) (g [] σ)
  | power => M.power (f c σ) (g [] σ)

/-! ## Positions of bound indices -/

namespace Env

variable {σ τ : Env} {ids : List IndexId} {positions : List Nat} {i : IndexId}

/-- An index that is not bound keeps its position. -/
theorem bind_of_not_mem (hi : i ∉ ids) : σ.bind ids positions i = σ i := by
  have hnone : (ids.zip positions).lookup i = none := by
    rw [List.lookup_eq_none_iff]
    intro p hp
    have hne : i ≠ p.1 := by
      rintro rfl
      exact hi (List.of_mem_zip hp).1
    exact bne_iff_ne.mpr hne
  rw [bind, hnone, Option.getD_none]

/-- A bound index has its position whatever it was outside. -/
theorem bind_of_mem (hl : positions.length = ids.length) (hi : i ∈ ids) :
    σ.bind ids positions i = τ.bind ids positions i := by
  induction ids generalizing positions with
  | nil => cases hi
  | cons j ids ih =>
    cases positions with
    | nil => cases hl
    | cons p positions =>
      rw [bind, bind, List.zip_cons_cons, List.lookup_cons]
      by_cases hij : i = j
      -- the first index has the first position
      · rw [hij, beq_self_eq_true]
        rfl
      -- any other index is looked up behind it
      · rw [beq_eq_false_iff_ne.mpr hij]
        exact ih (Nat.succ.inj hl) ((List.mem_cons.mp hi).resolve_left hij)

end Env

namespace Expr

/-! ## What is built has the meaning of its operator -/

section Values

variable {R A : Type} [Scalar R] [CommRing A] {M : Model R A} {a r : Expr R}

theorem value_node {op : UnaryOp} (hop : op.Computes) (c : List Nat) (σ : Env) :
    (unary op a).value M c σ = op.meaning M a.signature (a.value M) c σ := by
  cases op with
  | math | abs | indexSum | indexed | componentTensor | labelled => rfl
  | restricted | grad | referenceGrad | spatialDerivative | averaged =>
    obtain ⟨is, heq⟩ := hop rfl
    cases heq

theorem value_node₂ (op : BinaryOp) (a b : Expr R) (c : List Nat) (σ : Env) :
    (binary op a b).value M c σ =
      op.meaning M a.rank b.rank (a.value M) (b.value M) c σ := by
  cases op <;> rfl

/-- The constructor of an operator gives an expression with the meaning of the operator. -/
theorem value_unary_apply (hM : M.Exact) (hfun : M.ExactFunctions) {op : UnaryOp}
    (hop : op.Computes) (h : op.apply a = .ok r) {c : List Nat} (hc : c.length = r.rank)
    (σ : Env) : r.value M c σ = op.meaning M a.signature (a.value M) c σ := by
  cases op with
  | math f => exact value_math hM hfun h c σ
  | abs => exact value_abs hM hfun h c σ
  | indexSum i => exact value_sumOver hM h c σ
  | indexed is => exact value_index hM h hc σ
  | componentTensor ids => exact value_tensor hM h hc σ
  | labelled number =>
    obtain rfl : a.label number = r := Except.ok.inj h
    rfl
  | restricted | grad | referenceGrad | spatialDerivative | averaged =>
    obtain ⟨is, heq⟩ := hop rfl
    cases heq

end Values

section Values₂

variable {R K : Type} [Scalar R] [Field K] {M : Model R K} {a b r : Expr R}

/-- The constructor of a binary operator gives an expression with its meaning. -/
theorem value_binary_apply (hM : M.Exact) (hq : M.ExactQuotients) (hfun : M.ExactFunctions)
    {op : BinaryOp} (h : op.apply a b = .ok r) {c : List Nat} (hc : c.length = r.rank) (σ : Env) :
    r.value M c σ = op.meaning M a.rank b.rank (a.value M) (b.value M) c σ := by
  cases op with
  | sum => exact value_add hM h c σ
  | product => exact value_mul hM h hc σ
  | division =>
    rw [value_div hM hq h, BinaryOp.meaning, hq.quotient]
  | power => exact value_pow hM hfun h c σ

end Values₂

/-! ## What the meaning depends on -/

section Congr

variable {R A : Type} [Scalar R] [CommRing A] {M : Model R A} {a b r : Expr R} {σ τ : Env}
  {c : List Nat}

/-- The meaning depends on the dimensions of bound indices, on the positions of the entries,
and on the operand at its components and at positions for the bound indices. -/
theorem meaning_mapIndices {op : UnaryOp} (hop : op.Computes) (h : op.apply a = .ok r)
    (hc : c.length = r.rank) {s : Signature} {f g : List Nat → Env → A} {m : Index → Index}
    (hdim : ∀ i ∈ op.bound, s.free.dim? i = a.free.dim? i)
    (hentries : (op.entries.map m).map σ.resolve = op.entries.map τ.resolve)
    (hf : ∀ c' positions, c'.length = a.rank → positions.length = op.bound.length →
      f c' (σ.bind op.bound positions) = g c' (τ.bind op.bound positions)) :
    (op.mapIndices m).meaning M s f c σ = op.meaning M a.signature g c τ := by
  have hrank : c.length = (op.shape a.signature).length := by
    rw [hc, rank, (attributes_unary h).1]
  -- An operator that binds nothing reads its operand in the environment it is given.
  have hplain : ∀ c' : List Nat, op.bound = [] → c'.length = a.rank → f c' σ = g c' τ := by
    intro c' hb hc'
    have := hf c' [] hc' (by rw [hb])
    rwa [hb, Env.bind_nil, Env.bind_nil] at this
  cases op with
  | math fn =>
    -- an elementary function takes a scalar
    have ha : c.length = a.rank := by
      rw [hrank, rank, (math_built h).1]
      rfl
    exact congrArg (M.math fn) (hplain c rfl ha)
  | abs => exact congrArg M.abs (hplain c rfl hrank)
  | indexSum i =>
    -- the range of the summation is the dimension of the index
    have hd : s.free.dim? i = a.free.dim? i := hdim i (List.mem_singleton.mpr rfl)
    show ∑ j ∈ Finset.range ((s.free.dim? i).getD 0), f c (σ.bind [i] [j]) =
      ∑ j ∈ Finset.range ((a.free.dim? i).getD 0), g c (τ.bind [i] [j])
    rw [hd]
    exact Finset.sum_congr rfl fun j _ => hf c [j] hrank rfl
  | indexed is =>
    -- the component of the operand is what the entries resolve to
    have hl : is.length = a.rank := (index_built h).1
    show f ((is.map m).map σ.resolve) σ = g (is.map τ.resolve) τ
    have hmap : (is.map m).map σ.resolve = is.map τ.resolve := hentries
    rw [hmap]
    exact hplain _ rfl (by rw [List.length_map, hl])
  | componentTensor ids =>
    -- the ids are bound to the component, and the operand is scalar
    have hl : c.length = ids.length := by
      rw [hrank]
      exact List.length_map _
    have ha : ([] : List Nat).length = a.rank := by
      rw [rank, (tensor_ids_built h).1]
    exact hf [] c ha hl
  | labelled number => exact hplain c rfl hrank
  | restricted | grad | referenceGrad | spatialDerivative | averaged =>
    -- The operators left over compute nothing from their operand.
    obtain ⟨is, heq⟩ := hop rfl
    cases heq

/-- The meaning of one operator at different positions, over operands with equal values. -/
theorem meaning_congr {op : UnaryOp} (hop : op.Computes) (h : op.apply a = .ok r)
    (hc : c.length = r.rank) {s : Signature} {f g : List Nat → Env → A}
    (hdim : ∀ i ∈ op.bound, s.free.dim? i = a.free.dim? i)
    (hentries : op.entries.map σ.resolve = op.entries.map τ.resolve)
    (hf : ∀ c' positions, c'.length = a.rank → positions.length = op.bound.length →
      f c' (σ.bind op.bound positions) = g c' (τ.bind op.bound positions)) :
    op.meaning M s f c σ = op.meaning M a.signature g c τ := by
  have hid : (op.entries.map id).map σ.resolve = op.entries.map τ.resolve := by
    rw [List.map_id, hentries]
  have := meaning_mapIndices (M := M) hop h hc hdim hid hf
  rwa [UnaryOp.mapIndices_id] at this

/-- The positions of a component that a factor is taken at. -/
theorem length_take_rank (h : a.mul b = .ok r) (hc : c.length = r.rank) :
    (c.take a.rank).length = a.rank ∧ (c.take b.rank).length = b.rank := by
  obtain ⟨hshape, -, -⟩ := mul_built h
  rw [rank, (attributes_mul h).1] at hc
  rw [List.length_take, List.length_take, hc, rank, rank]
  -- the left operand is scalar, so the component belongs to the right one
  rcases hshape with ha | hb
  · rw [if_pos ha, ha]
    simp
  -- or the right one is scalar
  · by_cases ha : a.shape = []
    · rw [if_pos ha, ha]
      simp
    · rw [if_neg ha, hb]
      simp

/-- A binary operator has one value where its operands have equal values. -/
theorem meaning_congr₂ {op : BinaryOp} (h : op.apply a b = .ok r) (hc : c.length = r.rank)
    {f f' g g' : List Nat → Env → A} (hf : ∀ c', c'.length = a.rank → f c' σ = f' c' τ)
    (hg : ∀ c', c'.length = b.rank → g c' σ = g' c' τ) :
    op.meaning M a.rank b.rank f g c σ = op.meaning M a.rank b.rank f' g' c τ := by
  have hrank : c.length = (op.shape a.signature b.signature).length := by
    rw [hc, rank, (attributes_binary h).1]
  cases op with
  | sum =>
    obtain ⟨hshape, -⟩ := add_built h
    -- both summands have the rank of the sum
    have hb : c.length = b.rank := by
      rw [rank, ← hshape]
      exact hrank
    show f c σ + g c σ = f' c τ + g' c τ
    rw [hf c hrank, hg c hb]
  | product =>
    obtain ⟨ha, hb⟩ := length_take_rank h hc
    show f (c.take a.rank) σ * g (c.take b.rank) σ = f' (c.take a.rank) τ * g' (c.take b.rank) τ
    rw [hf _ ha, hg _ hb]
  | division =>
    -- the divisor is scalar
    have hb : ([] : List Nat).length = b.rank := by
      rw [rank, (div_built h).1]
    show M.quotient (f c σ) (g [] σ) = M.quotient (f' c τ) (g' [] τ)
    rw [hf c hrank, hg [] hb]
  | power =>
    obtain ⟨hsa, hsb, -⟩ := pow_built h
    -- base and exponent are scalar
    have ha : c.length = a.rank := by
      rw [hrank, rank, hsa]
      rfl
    have hb : ([] : List Nat).length = b.rank := by
      rw [rank, hsb]
    show M.power (f c σ) (g [] σ) = M.power (f' c τ) (g' [] τ)
    rw [hf c ha, hg [] hb]

/-- A stack of items with equal values has equal values. -/
theorem value_stack_congr {items items' : List (Expr R)} (hM : M.Exact)
    (h : stack items = .ok (listTensor items)) (hr : stack items' = .ok r)
    (hi : List.Forall₂ (fun item item' : Expr R => ∀ c', c'.length = item.rank →
      item'.value M c' σ = item.value M c' τ) items items')
    (hc : c.length = (listTensor items).rank) :
    r.value M c σ = (listTensor items).value M c τ := by
  cases c with
  | nil =>
    -- a stack has an axis
    obtain ⟨first, rest, rfl, -, -⟩ := stack_built h
    rw [rank, (attributes_stack h).1] at hc
    cases hc
  | cons k c =>
    rw [value_stack hM hr, value_listTensor]
    cases hk : items[k]? with
    -- beyond the list there is no item, and neither beyond the new one
    | none =>
      have hnone : items'[k]? = none := by
        rw [List.getElem?_eq_none_iff] at hk ⊢
        rwa [← hi.length_eq]
      rw [hnone]
      rfl
    | some item =>
      obtain ⟨item', hk', hitem⟩ := exists_right_of_getElem? hi hk
      -- an item has one axis less than the stack
      have hrank : c.length = item.rank := by
        rw [rank, (attributes_item h (List.mem_of_getElem? hk)).1] at hc
        exact Nat.succ.inj hc
      rw [hk']
      exact hitem c hrank

end Congr

end Expr

end WeakForm
