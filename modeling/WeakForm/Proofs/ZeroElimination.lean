import WeakForm.Graph.Elimination
import WeakForm.Proofs.Annotation
import WeakForm.Proofs.Folding

/-!
# Elimination of zero tables is sound

The elimination rebuilds every expression of a graph from its operands, with zero for the
terminals that read a zero table. The sweep over the nodes computes the same as a recursion
on expressions, `Expr.withoutZeros`, and that is what the proofs are about: each constructor
keeps the value, a divisor that would become zero stays what it was, and whatever is built
can be put into a graph again.

* `Expr.withoutZeros`, `Expr.Cleared` — the recursion, and expressions that read zero tables
  beneath vanishing divisors only;
* `Expr.Cleared.vanishing_part` — a part that still reads one is beneath a divisor;
* `withoutZeros_outcome`, `withoutZeros_rebuilt`, `withoutZeros_value` — it fails for the
  absolute value of the least integer only, it clears, and it keeps the value;
* `rebuilt_outcome` — the sweep computes the recursion at every node;
* `eliminateZeros_rebuilt` — what is left are rebuilt expressions;
* `eliminateZeros_sound` — the elimination.
-/

namespace WeakForm

variable {R : Type} [Scalar R]

/-! ## Rebuilding an expression -/

namespace Expr

open ScalarGraph

/-- The divisor of a rebuilt quotient: the new one, or the old one where that is zero. -/
def keptDivisor (op : BinaryOp) (old new : Expr R) : Expr R :=
  if op = .division ∧ new.isZero then old else new

/-- The expression built again with zero for its terminals that vanish. -/
def withoutZeros (vanishes : Expr R → Bool) : Expr R → Checked R (Expr R)
  | binary op a b => do
    let a' ← withoutZeros vanishes a
    let b' ← withoutZeros vanishes b
    op.apply a' (keptDivisor op b b')
  | unary (.math f) a => do (← withoutZeros vanishes a).math f
  | unary .abs a => do (← withoutZeros vanishes a).abs
  | e => .ok (if vanishes e then zero [] else e)

/-- Terminals that vanish occur in divisors that become zero only. -/
inductive Cleared (vanishes : Expr R → Bool) : Expr R → Prop
  /-- The constants that folding makes are not read from tables. -/
  | leaf {e : Expr R} (hop : operandsOf e = []) (h : vanishes e → e.isConstantValue) :
      Cleared vanishes e
  | node {e : Expr R} (hop : operandsOf e ≠ []) (h : ∀ a ∈ operandsOf e, Cleared vanishes a) :
      Cleared vanishes e
  | divisor {a b b' : Expr R} (ha : Cleared vanishes a) (hb : withoutZeros vanishes b = .ok b')
      (hz : b'.isZero) : Cleared vanishes (binary .division a b)

variable {vanishes : Expr R → Bool} {a b e r : Expr R}

/-- A leaf becomes zero if it vanishes, and stays otherwise. -/
theorem withoutZeros_leaf (h : operandsOf e = []) :
    withoutZeros vanishes e = .ok (if vanishes e then zero [] else e) := by
  cases e with
  | leaf | listTensor => rw [withoutZeros] <;> nofun
  | unary op a =>
    cases op with
    | math | abs => cases h
    | indexSum | indexed | componentTensor | restricted | grad | referenceGrad
      | spatialDerivative | averaged | labelled => rw [withoutZeros] <;> nofun
  | binary => cases h

/-- A function is applied to its operand without zeros. -/
theorem withoutZeros_unary {op : UnaryOp} (h : operandsOf (unary op a) = [a]) :
    withoutZeros vanishes (unary op a) = (withoutZeros vanishes a).bind op.apply := by
  rcases eq_math_or_abs h with ⟨f, rfl⟩ | rfl
  · rfl
  · rfl

omit [Scalar R] in
/-- The operator of a node with an operand is a function of any operand. -/
theorem operandsOf_unary {op : UnaryOp} (h : operandsOf (unary op a) = [a]) (b : Expr R) :
    operandsOf (unary op b) = [b] := by
  rcases eq_math_or_abs h with ⟨f, rfl⟩ | rfl
  · rfl
  · rfl

/-! ### Terminals and constants -/

theorem cleared_of_isConstantValue (h : e.isConstantValue) : Cleared vanishes e := by
  obtain ⟨t, rfl⟩ := leaf_of_isConstantValue h
  exact .leaf rfl fun _ => h

/-- **Where a terminal that vanishes is left**: it is one of the constants that folding makes, or
a part of a divisor. -/
theorem Cleared.vanishing_part (h : Cleared vanishes e) {x : Expr R} (hx : Part x e)
    (hop : operandsOf x = []) (hv : vanishes x) :
    x.isConstantValue ∨ ∃ a b, Part (binary .division a b) e ∧ Part x b := by
  induction h with
  | leaf hleaf hconst =>
    cases hx with
    | refl => exact .inl (hconst hv)
    | operand hb => rw [hleaf] at hb; cases hb
  | node hne _ ih =>
    cases hx with
    -- a node with operands is none of the leaves asked for
    | refl => exact absurd hop hne
    | operand hb hx =>
      refine (ih _ hb hx).imp_right ?_
      rintro ⟨a, b, hdivision, hpart⟩
      exact ⟨a, b, .operand hb hdivision, hpart⟩
  | @divisor a b b' _ _ _ ih =>
    cases hx with
    | refl => cases hop
    | operand hb hx =>
      rcases List.mem_pair.mp hb with rfl | rfl
      -- the dividend is cleared, and has its own divisors
      · refine (ih hx).imp_right ?_
        rintro ⟨a', b', hdivision, hpart⟩
        exact ⟨a', b', .operand List.mem_cons_self hdivision, hpart⟩
      -- Nothing is promised below a divisor, which is kept as it was.
      · exact .inr ⟨a, _, .refl, hx⟩

/-! ### What is built -/

/-- What comes out of the recursion can be put into a graph, and is cleared. -/
structure Rebuilt (vanishes : Expr R → Bool) (r : Expr R) : Prop where
  canonical : Canonical r
  insertable : Insertable r
  cleared : Cleared vanishes r

/-- A function of a rebuilt operand is rebuilt. -/
theorem Rebuilt.unary {op : UnaryOp} (hop : operandsOf (unary op a) = [a])
    (ha : Rebuilt vanishes a) (h : op.apply a = .ok r) : Rebuilt vanishes r := by
  refine ⟨canonical_unary ha.canonical h, ha.insertable.apply hop h, ?_⟩
  rcases unary_outcome h with rfl | hconst | rfl
  · exact ha.cleared
  · exact cleared_of_isConstantValue hconst
  · refine .node (by rw [hop]; nofun) fun x hx => ?_
    rw [hop, List.mem_singleton] at hx
    exact hx ▸ ha.cleared

/-- A binary operator on rebuilt operands is rebuilt. -/
theorem Rebuilt.binary {op : BinaryOp} (ha : Rebuilt vanishes a) (hb : Rebuilt vanishes b)
    (h : op.apply a b = .ok r) : Rebuilt vanishes r := by
  refine ⟨canonical_binary ha.canonical hb.canonical h, ha.insertable.apply₂ hb.insertable h, ?_⟩
  rcases binary_outcome h with rfl | rfl | hconst | rfl
  · exact ha.cleared
  · exact hb.cleared
  · exact cleared_of_isConstantValue hconst
  · refine .node nofun fun x hx => ?_
    rcases List.mem_pair.mp hx with rfl | rfl
    · exact ha.cleared
    · exact hb.cleared

/-- A quotient by a divisor that is kept because it becomes zero. -/
theorem Rebuilt.kept {b' : Expr R} (ha : Rebuilt vanishes a) (hcb : Canonical b)
    (hib : Insertable b) (hb : withoutZeros vanishes b = .ok b') (hz : b'.isZero)
    (h : a.div b = .ok r) : Rebuilt vanishes r := by
  have happly : BinaryOp.division.apply a b = .ok r := h
  refine ⟨canonical_binary ha.canonical hcb happly, ha.insertable.apply₂ hib happly, ?_⟩
  obtain ⟨-, -, -, hr⟩ := div_built h
  -- the quotient is folded, or keeps its divisor
  cases hr with
  | one => exact ha.cleared
  | zero => exact cleared_of_isConstantValue rfl
  | literals => exact cleared_of_isConstantValue (isConstantValue_literal _)
  | node => exact .divisor ha.cleared hb hz

/-- **What is rebuilt can be put into a graph, and is cleared.** -/
theorem withoutZeros_rebuilt (hc : Canonical e) (hi : Insertable e)
    (h : withoutZeros vanishes e = .ok r) : Rebuilt vanishes r := by
  induction hi generalizing r with
  -- a terminal is left out or stays
  | @terminal e m ht hd =>
    have hop := operandsOf_terminal ht
    rw [withoutZeros_leaf hop] at h
    cases h
    split
    · refine ⟨.leaf FreeIndices.sorted_nil, insertable_leaf isScalar_zero, ?_⟩
      exact cleared_of_isConstantValue rfl
    · next hv => exact ⟨hc, .terminal ht hd, .leaf hop fun h => absurd h hv⟩
  | @unary op a hop ha ih =>
    cases hc with
    | unary hca _ =>
    rw [withoutZeros_unary hop] at h
    obtain ⟨a', ha', h⟩ := bind_eq_ok.mp h
    -- a function is applied to the rebuilt operand
    exact (ih hca ha').unary (operandsOf_unary hop a') h
  | @binary op a b ha hb iha ihb =>
    cases hc with
    | binary hca hcb _ =>
    obtain ⟨a', ha', h⟩ := bind_eq_ok.mp h
    obtain ⟨b', hb', h⟩ := bind_eq_ok.mp h
    unfold keptDivisor at h
    split at h
    · -- a divisor that would become zero stays what it was
      next hkept =>
      obtain ⟨rfl, hz⟩ := hkept
      exact (iha hca ha').kept hcb hb hb' hz h
    · -- any other operand is rebuilt
      exact (iha hca ha').binary (ihb hcb hb') h

/-! ### Failures -/

/-- The absolute value of an integer beyond the range of literals: for an integer in the
range, it is the least one. -/
def FoldsToLeast (vanishes : Expr R → Bool) (e : Expr R) : Prop :=
  ∃ a n, Part (unary .abs a) e ∧
    withoutZeros vanishes a = .ok (leaf (.literal (.int n))) ∧ (Literal.Fits n → n = -2 ^ 63)

/-- Only the least integer has no absolute value. -/
theorem least_of_abs? {v : Literal R} (h : v.abs? = none) :
    ∃ n, v = .int n ∧ (Literal.Fits n → n = -2 ^ 63) := by
  cases v with
  | int n =>
    refine ⟨n, rfl, fun hfits => ?_⟩
    rw [Literal.abs?] at h
    split at h
    · cases h
    · next hn =>
      rw [Literal.fits_iff] at hfits hn
      omega
  -- a real number always has one
  | real x => cases h

/-- **Rebuilding succeeds**, but for the absolute value of the least integer. -/
theorem withoutZeros_outcome (hc : Canonical e) (hi : Insertable e) :
    (∃ r, withoutZeros vanishes e = .ok r) ∨
      (withoutZeros vanishes e = .error .overflow ∧ FoldsToLeast vanishes e) := by
  -- what folds to the least integer beneath an operand does so beneath the node
  have hpart : ∀ {x y : Expr R}, x ∈ operandsOf y → FoldsToLeast vanishes x →
      FoldsToLeast vanishes y := by
    rintro x y hx ⟨a, n, ha, hn⟩
    exact ⟨a, n, ha.trans (.operand hx .refl), hn⟩
  induction hi with
  | @terminal e m ht hd => exact .inl ⟨_, withoutZeros_leaf (operandsOf_terminal ht)⟩
  | @unary op a hop ha ih =>
    cases hc with
    | unary hca _ =>
    have hmem : a ∈ operandsOf (unary op a) := by
      rw [hop]
      exact List.mem_singleton.mpr rfl
    rw [withoutZeros_unary hop]
    rcases ih hca with ⟨a', ha'⟩ | ⟨herr, hleast⟩
    · have hscalar := (withoutZeros_rebuilt hca ha ha').insertable.isScalar
      rw [ha']
      -- functions of scalars succeed, but for the absolute value of the least integer
      rcases eq_math_or_abs hop with ⟨f, rfl⟩ | rfl
      · exact .inl (math_scalar f hscalar)
      · rcases abs_outcome a' with hok | ⟨v, rfl, hv, herr⟩
        · exact .inl hok
        · obtain ⟨n, rfl, hn⟩ := least_of_abs? hv
          exact .inr ⟨herr, a, n, .refl, ha', hn⟩
    · rw [herr]
      exact .inr ⟨rfl, hpart hmem hleast⟩
  | @binary op a b ha hb iha ihb =>
    cases hc with
    | binary hca hcb happly =>
    rw [withoutZeros]
    rcases iha hca with ⟨a', ha'⟩ | ⟨herr, hleast⟩
    -- a failure of the left operand is one of the node
    swap
    · rw [herr]
      exact .inr ⟨rfl, hpart List.mem_cons_self hleast⟩
    rcases ihb hcb with ⟨b', hb'⟩ | ⟨herr, hleast⟩
    -- so is a failure of the right operand
    swap
    · rw [ha', herr]
      exact .inr ⟨rfl, hpart (List.mem_cons_of_mem _ List.mem_cons_self) hleast⟩
    have hsa := (withoutZeros_rebuilt hca ha ha').insertable.isScalar
    have hsb := (withoutZeros_rebuilt hcb hb hb').insertable.isScalar
    rw [ha', hb']
    left
    show ∃ r, op.apply a' (keptDivisor op b b') = .ok r
    cases op with
    | sum => exact add_scalar hsa hsb
    | product => exact mul_scalar hsa
    | power => exact pow_scalar hsa hsb
    | division =>
      -- a new divisor that is zero is not used, and the old one is none
      unfold keptDivisor
      split
      · exact div_scalar hsa hb.isScalar (div_built happly).2.1
      · next hz => exact div_scalar hsa hsb (by simpa using hz)

/-! ### Values -/

section Values

variable {K : Type} [Field K] {M : Model R K}

/-- **Rebuilding keeps the value** where the terminals that are left out have the value
zero. -/
theorem withoutZeros_value (hM : M.Exact) (hq : M.ExactQuotients) (hf : M.ExactFunctions)
    (hc : Canonical e) (hi : Insertable e) {σ : Env}
    (hz : ∀ x, Part x e → operandsOf x = [] → vanishes x → x.value M [] σ = 0)
    (h : withoutZeros vanishes e = .ok r) : r.value M [] σ = e.value M [] σ := by
  induction hi generalizing r with
  | @terminal e m ht hd =>
    have hop := operandsOf_terminal ht
    rw [withoutZeros_leaf hop] at h
    cases h
    -- a leaf that vanishes has value zero
    split
    · next hv => rw [hz e .refl hop hv, zero, value_zero]
    · rfl
  | @unary op a hop ha ih =>
    cases hc with
    | unary hca _ =>
    rw [withoutZeros_unary hop] at h
    obtain ⟨a', ha', h⟩ := bind_eq_ok.mp h
    have hmem : a ∈ operandsOf (unary op a) := by
      rw [hop]
      exact List.mem_singleton.mpr rfl
    have hvalue := ih hca (fun x hx => hz x (hx.trans (.operand hmem .refl))) ha'
    rcases eq_math_or_abs hop with ⟨f, rfl⟩ | rfl
    · rw [value_math hM hf h, hvalue, value_unary_math]
    · rw [value_abs hM hf h, hvalue, value_unary_abs]
  | @binary op a b ha hb iha ihb =>
    cases hc with
    | binary hca hcb _ =>
    obtain ⟨a', ha', h⟩ := bind_eq_ok.mp h
    obtain ⟨b', hb', h⟩ := bind_eq_ok.mp h
    have hleft : a ∈ operandsOf (binary op a b) := List.mem_cons_self
    have hright : b ∈ operandsOf (binary op a b) := List.mem_cons_of_mem _ List.mem_cons_self
    -- leaves of an operand are leaves of the node
    have hva := iha hca (fun x hx => hz x (hx.trans (.operand hleft .refl))) ha'
    have hvb := ihb hcb (fun x hx => hz x (hx.trans (.operand hright .refl))) hb'
    have hsa := (withoutZeros_rebuilt hca ha ha').insertable.isScalar
    have hsb := (withoutZeros_rebuilt hcb hb hb').insertable.isScalar
    -- the divisor has its value whether it is kept or not
    have hkept : (keptDivisor op b b').value M [] σ = b.value M [] σ := by
      unfold keptDivisor
      split
      · rfl
      · exact hvb
    cases op with
    | sum => rw [value_add hM h, hva, hkept, value_binary_sum]
    | product =>
      have hskept : (keptDivisor .product b b').isScalar := hsb
      rw [value_mul_scalar hM hsa hskept h, hva, hkept, value_binary_product, List.take_nil,
        List.take_nil]
    | division => rw [value_div hM hq h, hva, hkept, value_binary_division, hq.quotient]
    | power => rw [value_pow hM hf h, hva, hkept, value_binary_power]

end Values

end Expr

/-! ## The sweep over a graph -/

/-- A terminal that reads a zero table. -/
def OptimizedTables.vanishes [DecidableEq R] (tables : OptimizedTables R) (e : Expr R) : Bool :=
  match e.analyse with
  | .ok (some m) => (tables.references[m.toDescriptor]?).any (·.type = .zeros)
  | _ => false

namespace ScalarGraph

open WeakForm.Expr

section Sweep

variable [DecidableEq R] {g g' : ScalarGraph R} {tables : OptimizedTables R}

omit [Scalar R] in
/-- A leaf reads zeros when its descriptor vanishes. -/
theorem readsZeros_eq {n : Node R} {m : ModifiedTerminal R} (hm : n.terminal = some m)
    (hd : n.expr.analyse = .ok (some m)) : readsZeros tables n = tables.vanishes n.expr := by
  rw [readsZeros, tableOf, hm, OptimizedTables.vanishes, hd]
  rfl

/-- Every leaf has its descriptor noted. -/
def Described (g : ScalarGraph R) : Prop :=
  ∀ (i : NodeId) (n : Node R), g.nodes[i]? = some n → n.isLeaf →
    ∃ m, n.terminal = some m ∧ n.expr.analyse = .ok (some m)

/-- The expression at a place of those that are rebuilt. -/
def readAt (es : Array (Expr R)) (i : NodeId) : Checked R (Expr R) :=
  match es[i]? with
  | some e => .ok e
  | none => .error .outOfBounds

omit [Scalar R] [DecidableEq R] in
theorem readAt_eq_ok {es : Array (Expr R)} {i : NodeId} {e : Expr R} :
    readAt es i = .ok e ↔ es[i]? = some e := by
  unfold readAt
  split
  · next h => rw [h, Option.some.injEq, Except.ok.injEq]
  · next h =>
    rw [h]
    constructor <;> intro h <;> cases h

omit [DecidableEq R] in
/-- The root over operands that are rebuilt. -/
theorem rebuild_keepDivisor {vanishes : Expr R → Bool} {e : Expr R} {rs : List (Expr R)}
    (hop : operandsOf e ≠ [])
    (h : List.Forall₂ (fun a r => withoutZeros vanishes a = .ok r) (operandsOf e) rs) :
    e.rebuild (keepDivisor e rs) = withoutZeros vanishes e := by
  cases e with
  | leaf | listTensor => exact absurd rfl hop
  | unary op a =>
    have hsome : operandsOf (unary op a) = [a] := by
      cases op with
      | math | abs => rfl
      | indexSum | indexed | componentTensor | restricted | grad | referenceGrad
        | spatialDerivative | averaged | labelled => exact absurd rfl hop
    rw [hsome] at h
    -- one operand
    cases h with
    | cons hr hnil =>
    cases hnil
    rw [withoutZeros_unary hsome, hr]
    rfl
  | binary op a b =>
    -- two operands, and the second may be kept
    cases h with
    | cons ha h =>
    cases h with
    | cons hb hnil =>
    cases hnil
    rw [withoutZeros, ha, hb]
    cases op with
    | sum | product | power => rfl
    | division =>
      next a' b' =>
      show a'.div (if b'.isZero then b else b') = a'.div (keptDivisor .division b b')
      unfold keptDivisor
      simp only [true_and]

/-- One step of the sweep is one step of the recursion. -/
theorem rebuildNode_eq {i : NodeId} {n : Node R} (hg : g.WellFormed) (hd : g.Described)
    (hn : g.nodes[i]? = some n) {before : Array (Expr R)}
    (hbefore : ∀ j a, j < i → g.expr j = .ok a →
      ∃ r, before[j]? = some r ∧ withoutZeros tables.vanishes a = .ok r) :
    rebuildNode tables before n = withoutZeros tables.vanishes n.expr := by
  have hformed := hg.nodes i n hn
  by_cases hleaf : n.isLeaf
  -- a leaf is described, so it is known whether it reads zeros
  · obtain ⟨m, hm, hanalyse⟩ := hd i n hn hleaf
    rw [rebuildNode, if_pos hleaf, readsZeros_eq hm hanalyse,
      withoutZeros_leaf (hformed.operandsOf_leaf hleaf)]
  · rw [rebuildNode, if_neg hleaf]
    -- the operands of the node are rebuilt already
    obtain ⟨rs, hrs, hall⟩ := exists_mapM (f := readAt before)
      (Q := fun a r => withoutZeros tables.vanishes a = .ok r) <|
      hformed.operands.imp fun j a hj => by
        obtain ⟨r, hr, hrebuilt⟩ := hbefore j a hj.1 hj.2
        exact ⟨r, readAt_eq_ok.mpr hr, hrebuilt⟩
    show (n.operands.mapM (readAt before)).bind
      (fun operands => n.expr.rebuild (keepDivisor n.expr operands)) = _
    rw [hrs]
    refine rebuild_keepDivisor (fun hnil => hleaf ?_) hall
    -- a node without operands is a leaf
    have hlen := hformed.operands.length_eq
    rw [hnil] at hlen
    exact List.isEmpty_iff.mpr (List.eq_nil_of_length_eq_zero hlen)

/-- The expressions of the nodes, rebuilt one by one. -/
def SweptTo (tables : OptimizedTables R) (g : ScalarGraph R) (k : Nat) (es : Array (Expr R)) :
    Prop :=
  es.size = k ∧ ∀ j a, j < k → g.expr j = .ok a →
    ∃ r, es[j]? = some r ∧ withoutZeros tables.vanishes a = .ok r

/-- The sweep rebuilds one more node. -/
theorem SweptTo.push {k : Nat} {es : Array (Expr R)} {n : Node R} {r : Expr R}
    (h : SweptTo tables g k es) (hn : g.nodes[k]? = some n)
    (hr : withoutZeros tables.vanishes n.expr = .ok r) : SweptTo tables g (k + 1) (es.push r) := by
  obtain ⟨hsize, hall⟩ := h
  refine ⟨by rw [Array.size_push, hsize], fun j a hj ha => ?_⟩
  -- The earlier results stay where they are, and the new one is pushed at place `k`.
  rcases Nat.lt_succ_iff_lt_or_eq.mp hj with hj | rfl
  · obtain ⟨r', hr', hrebuilt⟩ := hall j a hj ha
    refine ⟨r', ?_, hrebuilt⟩
    rw [Array.getElem?_push_lt (hsize ▸ hj), ← hr', Array.getElem?_eq_getElem]
  · obtain ⟨n', hn', rfl⟩ := expr_eq_ok.mp ha
    cases hn.symm.trans hn'
    exact ⟨r, by rw [← hsize]; exact Array.getElem?_push_size, hr⟩

/-- The sweep from the node `k` to the last. -/
theorem SweptTo.run (hg : g.WellFormed) (hd : g.Described) {k : Nat} {es : Array (Expr R)}
    {rest : List (Node R)} (h : SweptTo tables g k es) (hk : k ≤ g.size)
    (hrest : g.nodes.toList.drop k = rest) :
    (∃ es', rest.foldlM (fun before n => do
        return before.push (← rebuildNode tables before n)) es = .ok es' ∧
      SweptTo tables g g.size es') ∨
    ∃ i e b, g.expr i = .ok e ∧ withoutZeros tables.vanishes e = .error b ∧
      rest.foldlM (fun before n => do
        return before.push (← rebuildNode tables before n)) es = .error b := by
  induction rest generalizing k es with
  | nil =>
    have hlen := congrArg List.length hrest
    rw [List.length_drop, Array.length_toList, List.length_nil] at hlen
    have hk : k = g.size := by
      have : g.nodes.size = g.size := rfl
      omega
    -- all nodes are rebuilt
    exact .inl ⟨es, rfl, hk ▸ h⟩
  | cons n rest ih =>
    obtain ⟨hn, hnext⟩ := item_of_drop hrest
    have hlt : k < g.size := (Array.getElem?_eq_some_iff.mp hn).1
    rw [List.foldlM_cons, rebuildNode_eq hg hd hn h.2]
    -- the sweep stops where a node cannot be rebuilt
    cases hr : withoutZeros tables.vanishes n.expr with
    | error b => exact .inr ⟨k, n.expr, b, expr_eq_ok.mpr ⟨n, hn, rfl⟩, hr, rfl⟩
    | ok r => exact ih (h.push hn hr) hlt hnext

/-- **The sweep rebuilds the expression of every node**, or fails where that fails. -/
theorem rebuilt_outcome (hg : g.WellFormed) (hd : g.Described) :
    (∃ es, g.rebuilt tables = .ok es ∧ SweptTo tables g g.size es) ∨
      ∃ i e b, g.expr i = .ok e ∧ withoutZeros tables.vanishes e = .error b ∧
        g.rebuilt tables = .error b := by
  have hstart : SweptTo tables g 0 #[] := ⟨rfl, fun j a hj => absurd hj (Nat.not_lt_zero j)⟩
  have hall := hstart.run hg hd (Nat.zero_le _) rfl
  rw [rebuilt, ← Array.foldlM_toList]
  exact hall

/-- The expressions of the targets are read off those of the nodes. -/
theorem SweptTo.targets (hg : g.WellFormed) {rs : Array (Expr R)}
    (h : SweptTo tables g g.size rs) :
    ∃ es', (g.targets.toList.mapM fun i =>
        match rs[i]? with
        | some e => (.ok e : Result R _)
        | none => .error (.breach .outOfBounds)) = .ok es' ∧
      List.Forall₂ (fun i e' => ∃ e, g.expr i = .ok e ∧ withoutZeros tables.vanishes e = .ok e')
        g.targets.toList es' := by
  refine exists_mapM (List.forall₂_same.mpr fun i hi => ?_)
  have hi := hg.targets i (Array.mem_toList_iff.mp hi)
  obtain ⟨e, he⟩ := exists_expr hi
  obtain ⟨r, hr, hrebuilt⟩ := h.2 i e hi he
  exact ⟨r, by rw [hr], e, he, hrebuilt⟩

/-- The new targets are rebuilt expressions. -/
theorem rebuilt_of_targets (hc : g.Holds Canonical) (hi : g.Holds Insertable)
    {ids : List NodeId} {es' : List (Expr R)}
    (h : List.Forall₂ (fun i e' => ∃ e, g.expr i = .ok e ∧ withoutZeros tables.vanishes e = .ok e')
      ids es') : ∀ e' ∈ es', Rebuilt tables.vanishes e' := by
  intro e' he'
  obtain ⟨i, -, e, he, hr⟩ := exists_left_of_mem h he'
  exact withoutZeros_rebuilt (hc i e he) (hi i e he) hr

omit [Scalar R] in
/-- A terminal of what a node holds is a leaf of the graph. -/
theorem exists_leaf_of_part (hg : g.WellFormed) (hd : g.Described) {i : NodeId}
    {e x : Expr R} (he : g.expr i = .ok e) (hx : Part x e) (hop : operandsOf x = []) :
    ∃ n ∈ g.nodes, n.isLeaf ∧ n.expr = x ∧ readsZeros tables n = tables.vanishes x := by
  obtain ⟨j, hj⟩ := hg.exists_part hx he
  obtain ⟨n, hn, rfl⟩ := expr_eq_ok.mp hj
  have hlen := (hg.nodes j n hn).operands.length_eq
  rw [hop] at hlen
  have hleaf : n.isLeaf := List.isEmpty_iff.mpr (List.eq_nil_of_length_eq_zero hlen)
  obtain ⟨m, hm, hanalyse⟩ := hd j n hn hleaf
  exact ⟨n, Array.mem_of_getElem? hn, hleaf, rfl, readsZeros_eq hm hanalyse⟩

/-! ## The elimination -/

/-- The elimination ends with the graph of rebuilt expressions. -/
theorem eliminateZeros_rebuilt (hg : g.WellFormed) (hd : g.Described) (hc : g.Holds Canonical)
    (hi : g.Holds Insertable) (h : g.eliminateZeros tables = .ok g') :
    ∃ es', ofTargets es' = .ok g' ∧ ∀ e' ∈ es', Rebuilt tables.vanishes e' := by
  -- both steps have succeeded
  obtain ⟨rs, hrs, h⟩ := bind_eq_ok.mp h
  obtain ⟨es', hes', h⟩ := bind_eq_ok.mp h
  have houtcome : (∃ rs, g.rebuilt tables = .ok rs ∧ SweptTo tables g g.size rs) ∨ _ :=
    rebuilt_outcome hg hd
  rcases houtcome with ⟨rs', hrs', hswept⟩ | ⟨_, _, b, _, _, hrs'⟩
  · obtain rfl : rs' = rs := Except.ok.inj (hrs'.symm.trans (lift_eq_ok.mp hrs))
    -- the targets are among the rebuilt expressions
    obtain ⟨es'', hes'', hall⟩ := hswept.targets hg
    obtain rfl : es'' = es' := Except.ok.inj (hes''.symm.trans hes')
    exact ⟨es'', h, rebuilt_of_targets hc hi hall⟩
  · -- the expressions of the nodes were rebuilt
    rw [lift_eq_ok.mp hrs] at hrs'
    cases hrs'

/-- The graph `g'` is `g` without the terminals that read a zero table. -/
structure ZerosEliminated (tables : OptimizedTables R) (g g' : ScalarGraph R) : Prop where
  size : g'.targets.size = g.targets.size
  /-- In each place there is a target of the same value, in which zero tables are read
  beneath vanishing divisors only. -/
  target : ∀ (k : Nat) (i i' : NodeId), g.targets[k]? = some i → g'.targets[k]? = some i' →
    ∃ e e', g.expr i = .ok e ∧ g'.expr i' = .ok e' ∧ Cleared tables.vanishes e' ∧
      ∀ {K : Type} [Field K] {M : Model R K}, M.Exact → M.ExactQuotients → M.ExactFunctions →
        ∀ σ : Env, (∀ n ∈ g.nodes, n.isLeaf → readsZeros tables n → n.expr.value M [] σ = 0) →
          e'.value M [] σ = e.value M [] σ
  /-- Nothing but the targets and their parts is in the graph. -/
  parts : g'.Holds fun a => ∃ i' ∈ g'.targets, ∃ e', g'.expr i' = .ok e' ∧ Part a e'

/-- The node at which the elimination fails: the absolute value of what becomes the least
integer. -/
def AbsOfLeast (tables : OptimizedTables R) (g : ScalarGraph R) : Prop :=
  ∃ i a n, g.expr i = .ok (unary .abs a) ∧
    withoutZeros tables.vanishes a = .ok (leaf (.literal (.int n))) ∧
    (Literal.Fits n → n = -2 ^ 63)

/-- **Elimination of zero tables is sound.** In a graph of built expressions of which the
leaves have their descriptors noted, it fails for the absolute value of the least integer
only. Otherwise each target has, in its place, a target of the same value wherever the
terminals that read zero tables are zero, and these are left beneath divisors only that
become zero without them. -/
theorem eliminateZeros_sound {g₀ : ScalarGraph R} {es : List (Expr R)} (hb : ∀ e ∈ es, Built e)
    (h₀ : ofTargets es = .ok g₀) (h : g₀.describeLeaves = .ok g) (tables : OptimizedTables R) :
    (∃ g', g.eliminateZeros tables = .ok g' ∧ ZerosEliminated tables g g') ∨
      (g.eliminateZeros tables = .error (.breach .overflow) ∧ AbsOfLeast tables g) := by
  -- the leaves of the graph are described, and its nodes canonical
  have hg₀ := ofTargets_wellFormed h₀
  have hg := describeLeaves_wellFormed hg₀ h
  have hd : g.Described := fun i n hn hleaf => describeLeaves_leaf h hn hleaf
  have hinsertable := describeLeaves_insertable hg₀ h
  have hcanonical : g.Holds Canonical := fun i e he =>
    ofTargets_canonical hb h₀ i e ((describeLeaves_reannotates h).expr.mp he)
  have houtcome : (∃ rs, g.rebuilt tables = .ok rs ∧ SweptTo tables g g.size rs) ∨ _ :=
    rebuilt_outcome hg hd
  rcases houtcome with ⟨rs, hrs, hswept⟩ | ⟨i, e, b, he, herr, hrs⟩
  · left
    -- the targets are rebuilt, and can be put into a new graph
    obtain ⟨es', hes', hall⟩ := hswept.targets hg
    have hrebuilt := rebuilt_of_targets hcanonical hinsertable hall
    obtain ⟨g', hg', ht', hparts⟩ := ofTargets_insertable (fun e he => (hrebuilt e he).canonical)
      fun e he => (hrebuilt e he).insertable
    refine ⟨g', ?_, ?_, fun k i i' hi hi' => ?_, fun j a ha => ?_⟩
    · exact bind_eq_ok.mpr ⟨rs, lift_eq_ok.mpr hrs, bind_eq_ok.mpr ⟨es', hes', hg'⟩⟩
    -- there is a new target for every old one
    · rw [← Array.length_toList, ← Array.length_toList, ht'.length_eq, hall.length_eq]
    -- at the same place, with the same value
    · rw [← Array.getElem?_toList] at hi hi'
      obtain ⟨e', he', e, he, hr⟩ := exists_right_of_getElem? hall hi
      obtain ⟨e'', he'', hnode⟩ := exists_right_of_getElem? ht' hi'
      cases he'.symm.trans he''
      refine ⟨e, e', he, hnode, (hrebuilt e' (List.mem_of_getElem? he')).cleared, ?_⟩
      intro K _ M hM hq hf σ hzero
      refine withoutZeros_value hM hq hf (hcanonical i e he) (hinsertable i e he) ?_ hr
      intro x hx hop hv
      obtain ⟨n, hn, hleaf, rfl, hreads⟩ := exists_leaf_of_part hg hd he hx hop
      exact hzero n hn hleaf (hreads.trans hv)
    -- every node of the new graph is below a target
    · obtain ⟨e', he', hpart⟩ := hparts j a ha
      obtain ⟨i', hi', hnode⟩ := exists_left_of_mem ht' he'
      exact ⟨i', Array.mem_toList_iff.mp hi', e', hnode, hpart⟩
  · right
    -- the node that failed took an absolute value of the least integer
    rcases withoutZeros_outcome (hcanonical i e he) (hinsertable i e he) with
      ⟨r, hr⟩ | ⟨hover, a, n, hpart, ha, hn⟩
    · rw [herr] at hr
      cases hr
    · rw [hover] at herr
      cases herr
      obtain ⟨j, hj⟩ := hg.exists_part hpart he
      refine ⟨?_, j, a, n, hj, ha, hn⟩
      rw [eliminateZeros, hrs]
      rfl

end Sweep

/-! ### A term that vanishes -/

namespace VanishingTerm

/-- A coefficient of linear elements on a triangle. -/
def function (count : Nat) : Expr ℚ :=
  coefficient ⟨count, ⟨1, 1, []⟩, .ofCell .triangle 0⟩

def term : Expr ℚ :=
  binary .product (function 0) (function 1)

/-- A coefficient, and its product with another one. -/
def integrand : Expr ℚ :=
  binary .sum (function 0) term

/-- The other coefficient reads a zero table. -/
def zeroTable : OptimizedTables ℚ where
  references := Std.HashMap.ofList
    [(⟨.coefficient ⟨1, ⟨1, 1, []⟩, .ofCell .triangle 0⟩, [], [], [], none, none⟩,
      ⟨"FE", "FE", [0, 1, 2], .zeros, 0, 3, true, true, false⟩)]

/-- The integrand is built by the constructors. -/
theorem built_integrand : Built integrand := by
  have hterm : BinaryOp.apply .product (function 0) (function 1) = .ok term := by
    cbv
  have hsum : BinaryOp.apply .sum (function 0) term = .ok integrand := by
    cbv
  exact .binary (.coefficient _) (.binary (.coefficient _) (.coefficient _) hterm) hsum

/-- The integrand can be inserted. -/
theorem insertable_integrand : Insertable integrand := by
  have hleaf : ∀ count, Insertable (function count) := fun count =>
    insertable_leaf (isScalar_iff.mpr ⟨shape_leaf _, free_leaf _⟩)
  exact .binary (hleaf 0) (.binary (hleaf 0) (hleaf 1))

/-- There is no absolute value in the integrand. -/
theorem not_part_abs (a : Expr ℚ) : ¬Part (.unary .abs a) integrand := by
  intro h
  -- a function has no parts but itself
  have hleaf : ∀ count, ¬Part (.unary .abs a) (function count) := fun count h => by
    cases h with
    | operand hb => cases hb
  cases h with
  | operand hb h =>
    rcases List.mem_pair.mp hb with rfl | rfl
    · exact hleaf 0 h
    · cases h with
      | operand hb h =>
        rcases List.mem_pair.mp hb with rfl | rfl
        · exact hleaf 0 h
        · exact hleaf 1 h

end VanishingTerm

/-- The elimination succeeds where a term vanishes. -/
theorem eliminateZeros_sound_vanishingTerm :
    ∃ g₀ g g', ofTargets [VanishingTerm.integrand] = .ok g₀ ∧ g₀.describeLeaves = .ok g ∧
      g.eliminateZeros VanishingTerm.zeroTable = .ok g' ∧
      ZerosEliminated VanishingTerm.zeroTable g g' := by
  have hbuilt : ∀ e ∈ [VanishingTerm.integrand], Built e := fun e he => by
    rw [List.mem_singleton.mp he]
    exact VanishingTerm.built_integrand
  have hinsertable : ∀ e ∈ [VanishingTerm.integrand], Insertable e := fun e he => by
    rw [List.mem_singleton.mp he]
    exact VanishingTerm.insertable_integrand
  -- the graph of the integrand, described
  obtain ⟨g₀, h₀, -, hparts⟩ :=
    ofTargets_insertable (fun e he => (hbuilt e he).canonical) hinsertable
  have hholds : g₀.Holds Insertable := fun i a ha => by
    obtain ⟨e, he, hpart⟩ := hparts i a ha
    exact insertable_part hpart (hinsertable e he)
  obtain ⟨g, h⟩ := exists_describeLeaves (ofTargets_wellFormed h₀) hholds
  rcases eliminateZeros_sound hbuilt h₀ h VanishingTerm.zeroTable with
    ⟨g', hg', hsound⟩ | ⟨-, i, a, n, ha, -⟩
  · exact ⟨g₀, g, g', h₀, h, hg', hsound⟩
  · -- what a node holds is a part of the integrand
    obtain ⟨e, he, hpart⟩ := hparts i _ ((describeLeaves_reannotates h).expr.mp ha)
    rw [List.mem_singleton.mp he] at hpart
    exact absurd hpart (VanishingTerm.not_part_abs a)

end ScalarGraph

end WeakForm
