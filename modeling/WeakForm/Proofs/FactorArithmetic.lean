import WeakForm.Factorization
import WeakForm.Proofs.Attributes
import WeakForm.Proofs.Folding
import WeakForm.Proofs.Insertion
import WeakForm.Proofs.MapSum

/-!
# Arithmetic on sums of terms is sound

A map from keys to factors stands for the sum over its entries of the factor times the
arguments that the key names. The operations on such maps insert new factors into the
graph of factors as they go, so what they keep is stated for every reading of the graph
they end with: an assignment of numbers to nodes that agrees with the expressions the
nodes hold.

* `ScalarGraph.ReadBy` — an assignment agrees with a graph;
* `FactorMap.eval` — the sum a map stands for;
* `Factors.Represents` — factors in a graph stand for a value;
* `scale_sound`, `sum_sound`, `product_sound`, `division_sound` — one lemma for each
  operation.
-/

namespace WeakForm

open Building ScalarGraph

variable {R K : Type} [Scalar R] [DecidableEq R] [Field K] {M : Model R K} {σ : Env}

/-! ## Values at nodes -/

/-- An operator over two numbers. -/
def BinaryOp.onValues (M : Model R K) : BinaryOp → K → K → K
  | .sum => (· + ·)
  | .product => (· * ·)
  | .division => M.quotient
  | .power => M.power

omit [DecidableEq R] in
/-- A scalar node has the value that its operator computes. -/
theorem Expr.value_binary_scalar (op : BinaryOp) (a b : Expr R) :
    (Expr.binary op a b).value M [] σ = op.onValues M (a.value M [] σ) (b.value M [] σ) := by
  cases op with
  | product => rw [value_binary_product, List.take_nil, List.take_nil, BinaryOp.onValues]
  | sum | division | power => rfl

omit [DecidableEq R] in
/-- An operator built over scalars has the value of the operator. -/
theorem Expr.value_apply_scalar (hM : M.Exact) (hq : M.ExactQuotients) {op : BinaryOp}
    (hop : op ≠ .power) {a b r : Expr R} (ha : a.isScalar) (hb : b.isScalar)
    (h : op.apply a b = .ok r) :
    r.value M [] σ = op.onValues M (a.value M [] σ) (b.value M [] σ) := by
  cases op with
  | sum => exact value_add hM h [] σ
  | product => exact value_mul_scalar hM ha hb h σ
  | division => rw [value_div hM hq h, BinaryOp.onValues, hq.quotient]
  | power => exact absurd rfl hop

/-- `v` gives every node of the graph the value of the expression it holds. -/
def ScalarGraph.ReadBy (g : ScalarGraph R) (M : Model R K) (σ : Env) (v : NodeId → K) : Prop :=
  ∀ (i : NodeId) (e : Expr R), g.expr i = .ok e → v i = e.value M [] σ

theorem ScalarGraph.Extends.readBy {g g' : ScalarGraph R} (h : g.Extends g') {v : NodeId → K}
    (hv : g'.ReadBy M σ v) : g.ReadBy M σ v :=
  fun i e he => hv i e (h.expr he)

/-- A graph is read by the values of its own expressions. -/
theorem ScalarGraph.exists_readBy (g : ScalarGraph R) (M : Model R K) (σ : Env) :
    ∃ v : NodeId → K, g.ReadBy M σ v := by
  refine ⟨fun i => match g.expr i with
    | .ok e => e.value M [] σ
    | .error _ => 0, fun i e he => ?_⟩
  simp only [he]

/-! ## Sums of terms -/

/-- The value of a term: the factor times the arguments of the key. -/
def termValue (v : NodeId → K) (key : ArgumentKey) (f : NodeId) : K :=
  v f * (key.map v).prod

/-- The sum that a map stands for. -/
def FactorMap.eval (v : NodeId → K) (m : FactorMap) : K :=
  mapSum (termValue v) m

/-- Factors are nodes of `g`, and keys name arguments below `n`. -/
def FactorMap.Within (m : FactorMap) (n : Nat) (g : ScalarGraph R) : Prop :=
  ∀ (key : ArgumentKey) (f : NodeId), m[key]? = some f → f < g.size ∧ ∀ p ∈ key, p < n

namespace FactorMap

variable {n : Nat} {g g' : ScalarGraph R} {m : FactorMap} {key : ArgumentKey} {f : NodeId}

omit [Scalar R] in
theorem within_empty : Within ∅ n g := by
  intro key f h
  simp at h

omit [Scalar R] in
theorem Within.mono (hm : m.Within n g) (h : g.Extends g') : m.Within n g' :=
  fun key f hf => ⟨Nat.lt_of_lt_of_le (hm key f hf).1 h.size_le, (hm key f hf).2⟩

omit [Scalar R] in
/-- One more entry that stands within it. -/
theorem Within.insert (hm : m.Within n g) (hf : f < g.size) (hkey : ∀ p ∈ key, p < n) :
    FactorMap.Within (m.insert key f) n g := by
  intro key' f' h
  rcases entry_of_insert h with ⟨rfl, rfl⟩ | h
  · exact ⟨hf, hkey⟩
  · exact hm key' f' h

/-- Inserting under one key leaves the others. -/
theorem getElem?_insert_of_ne {key' : ArgumentKey} (h : key ≠ key') :
    (m.insert key f)[key']? = m[key']? := by
  rw [Std.TreeMap.getElem?_insert, if_neg]
  exact fun hk => h (Std.LawfulEqCmp.compare_eq_iff_eq.mp hk)

/-- The sum over a map is the sum over its list of entries. -/
theorem eval_eq_sum (v : NodeId → K) (m : FactorMap) :
    m.eval v = (m.toList.map fun entry => termValue v entry.1 entry.2).sum :=
  rfl

end FactorMap

/-- A product of two terms is the term of both keys and both factors. -/
theorem termValue_mul (v : NodeId → K) (k l : ArgumentKey) (x y : NodeId) :
    v x * v y * ((k ++ l).mergeSort.map v).prod = termValue v k x * termValue v l y := by
  have hperm : ((k ++ l).mergeSort.map v).prod = ((k ++ l).map v).prod :=
    ((List.mergeSort_perm _ _).map v).prod_eq
  rw [hperm, List.map_append, List.prod_append, termValue, termValue]
  ring

/-! ## One factor -/

section

variable {n : Nat} {g g' : ScalarGraph R}

omit [Field K] in
/-- Two factors are combined by inserting the operator over what they hold. -/
theorem returns_combine {op : BinaryOp} {x y i : NodeId} :
    Returns (Factors.combine op x y) g i g' ↔ ∃ a b e, g.expr x = .ok a ∧ g.expr y = .ok b ∧
      op.apply a b = .ok e ∧ Returns (insert e) g i g' := by
  simp only [Factors.combine, returns_bind, returns_get, returns_lift]
  constructor
  · rintro ⟨_, _, ⟨rfl, rfl⟩, a, _, ⟨ha, rfl⟩, b, _, ⟨hb, rfl⟩, e, _, ⟨he, rfl⟩, h⟩
    exact ⟨a, b, e, ha, hb, he, h⟩
  · rintro ⟨a, b, e, ha, hb, he, h⟩
    exact ⟨g, g, ⟨rfl, rfl⟩, a, g, ⟨ha, rfl⟩, b, g, ⟨hb, rfl⟩, e, g, ⟨he, rfl⟩, h⟩

/-- The new factor holds the operator built over the two factors. -/
theorem combine_sound (hM : M.Exact) (hq : M.ExactQuotients) (hg : g.WellFormed) {op : BinaryOp}
    (hop : op ≠ .power) {x y i : NodeId} (h : Returns (Factors.combine op x y) g i g') :
    g'.WellFormed ∧ g.Extends g' ∧ i < g'.size ∧
      ∀ v : NodeId → K, g'.ReadBy M σ v → v i = op.onValues M (v x) (v y) := by
  obtain ⟨a, b, e, ha, hb, he, h⟩ := returns_combine.mp h
  have hi := insert_returns hg h
  refine ⟨hi.wellFormed, hi.grown, lt_size_of_expr hi.expr, fun v hv => ?_⟩
  rw [hv i e hi.expr, hi.grown.readBy hv x a ha, hi.grown.readBy hv y b hb]
  exact Expr.value_apply_scalar hM hq hop (hg.expr_scalar ha) (hg.expr_scalar hb) he

/-- Adding a factor to the term of a key adds its term to the sum. -/
theorem addTerm_sound (hM : M.Exact) (hq : M.ExactQuotients) (hg : g.WellFormed)
    {m m' : FactorMap} {key : ArgumentKey} {x : NodeId} (hm : m.Within n g) (hx : x < g.size)
    (hkey : ∀ p ∈ key, p < n) (h : Returns (Factors.addTerm m key x) g m' g') :
    g'.WellFormed ∧ g.Extends g' ∧ m'.Within n g' ∧
      (∀ key', key ≠ key' → m'[key']? = m[key']?) ∧
      ∀ v : NodeId → K, g'.ReadBy M σ v → m'.eval v = m.eval v + termValue v key x := by
  unfold Factors.addTerm at h
  split at h
  · -- a key that is there already: the factors are added
    next previous hp =>
    simp only [returns_bind, returns_pure] at h
    obtain ⟨i, _, hi, rfl, rfl⟩ := h
    obtain ⟨hg', hext, hlt, hv⟩ := combine_sound (σ := σ) hM hq hg (by decide) hi
    refine ⟨hg', hext, (hm.mono hext).insert hlt hkey,
      fun key' hne => FactorMap.getElem?_insert_of_ne hne, fun v hr => ?_⟩
    rw [FactorMap.eval, mapSum_insert_old hp, FactorMap.eval, termValue, termValue, termValue,
      hv v hr, BinaryOp.onValues]
    ring
  · -- a new key: its factor is kept
    next hp =>
    obtain ⟨rfl, rfl⟩ := returns_pure.mp h
    refine ⟨hg, .refl g, hm.insert hx hkey,
      fun key' hne => FactorMap.getElem?_insert_of_ne hne, fun v _ => ?_⟩
    rw [FactorMap.eval, mapSum_insert_new hp, FactorMap.eval, add_comm]

/-! ## Operations on sums -/

/-- Entries of a map have different keys. -/
theorem entry_new {m : FactorMap} {done : List (ArgumentKey × NodeId)}
    {entry : ArgumentKey × NodeId} (h : done ++ [entry] <+: m.toList) :
    entry.1 ∉ done.map (·.1) := by
  have hd := (Std.TreeMap.distinct_keys_toList (t := m)).sublist h.sublist
  rw [List.pairwise_append] at hd
  intro hmem
  obtain ⟨other, ho, heq⟩ := List.mem_map.mp hmem
  refine hd.2.2 other ho entry (List.mem_singleton_self _) ?_
  rw [heq]
  exact Std.ReflCmp.compare_self

omit [Scalar R] in
/-- The keys of one entry more. -/
theorem not_mem_keys_concat {done : List (ArgumentKey × NodeId)} {entry : ArgumentKey × NodeId}
    {key : ArgumentKey} : key ∉ (done ++ [entry]).map (·.1) ↔
      key ∉ done.map (·.1) ∧ key ≠ entry.1 := by
  rw [List.map_append, List.mem_append, not_or]
  exact and_congr_right fun _ => not_congr List.mem_singleton

/-- An entry that is done stands in the map. -/
theorem entry_mem {m : FactorMap} {done : List (ArgumentKey × NodeId)}
    {entry : ArgumentKey × NodeId} (h : done ++ [entry] <+: m.toList) :
    m[entry.1]? = some entry.2 :=
  Std.TreeMap.mem_toList_iff_getElem?_eq_some.mp (h.subset (by simp))

/-- What an operation on sums ends with: a sum with the value `x`, over a graph that has
grown. -/
structure SumsTo (M : Model R K) (σ : Env) (n : Nat) (g g' : ScalarGraph R) (m : FactorMap)
    (x : (NodeId → K) → K) : Prop where
  wellFormed : g'.WellFormed
  grown : g.Extends g'
  within : m.Within n g'
  eval : ∀ v : NodeId → K, g'.ReadBy M σ v → m.eval v = x v

/-- Scaling by a value `s` that multiplies every factor multiplies the sum. -/
theorem scale_sound (hM : M.Exact) (hq : M.ExactQuotients) (hg : g.WellFormed) {op : BinaryOp}
    (hop : op ≠ .power) {m : FactorMap} (hm : m.Within n g) {y : NodeId} {s : (NodeId → K) → K}
    (hs : ∀ (v : NodeId → K) (t : K), op.onValues M t (v y) = t * s v) {f : Factors}
    (h : Returns (Factors.scale op m y) g f g') :
    ∃ m', f = .terms m' ∧ SumsTo M σ n g g' m' fun v => m.eval v * s v := by
  -- the loop over the map is one over its entries
  simp only [Factors.scale, Std.TreeMap.foldlM_eq_foldlM_toList, returns_bind, returns_pure] at h
  obtain ⟨m', _, h, rfl, rfl⟩ := h
  refine ⟨m', rfl, ?_⟩
  -- the entries that are done are scaled, and no other key is there yet
  have key := foldlM_induct
    (P := fun done scaled g₁ => SumsTo M σ n g g₁ scaled
        (fun v => (done.map fun entry => termValue v entry.1 entry.2).sum * s v) ∧
      ∀ key, key ∉ done.map (·.1) → scaled[key]? = none) h
    ⟨⟨hg, .refl g, FactorMap.within_empty, fun v _ => by simp [FactorMap.eval]⟩, by simp⟩ ?_
  · exact key.1
  · intro done entry scaled scaled' g₁ g₂ hpre hP hr
    obtain ⟨⟨hg₁, hext₁, hin, heval⟩, hnone⟩ := hP
    simp only [returns_bind, returns_pure] at hr
    obtain ⟨i, _, hi, rfl, rfl⟩ := hr
    obtain ⟨hg₂, hext₂, hlt, hv⟩ := combine_sound (σ := σ) hM hq hg₁ hop hi
    have hnew := entry_new hpre
    have hkey := (hm entry.1 entry.2 (entry_mem hpre)).2
    refine ⟨⟨hg₂, hext₁.trans hext₂, (hin.mono hext₂).insert hlt hkey, fun v hr => ?_⟩, ?_⟩
    -- the values before stand, and the new entry adds its own
    · have hold := heval v (hext₂.readBy hr)
      rw [FactorMap.eval] at hold
      rw [FactorMap.eval, mapSum_insert_new (hnone _ hnew), hold, termValue, hv v hr, hs]
      simp only [List.map_append, List.sum_append, List.map_cons, List.map_nil, List.sum_cons,
        List.sum_nil, termValue]
      ring
    · intro key' hmem
      obtain ⟨hmem, hne⟩ := not_mem_keys_concat.mp hmem
      rw [FactorMap.getElem?_insert_of_ne hne.symm]
      exact hnone key' hmem

/-- The sum of two sums of terms. -/
theorem sum_sound (hM : M.Exact) (hq : M.ExactQuotients) (hg : g.WellFormed) {e : Expr R}
    {a b f : Factors} (ha : ∀ m, a = .terms m → m.Within n g)
    (hb : ∀ m, b = .terms m → m.Within n g) (h : Returns (Factors.sum e a b) g f g') :
    ∃ as bs m', a = .terms as ∧ b = .terms bs ∧ f = .terms m' ∧
      SumsTo M σ n g g' m' fun v => as.eval v + bs.eval v := by
  unfold Factors.sum at h
  split at h
  · next as bs =>
    -- both are sums of terms, since nothing else is added
    split at h
    · simp only [Std.TreeMap.foldlM_eq_foldlM_toList, returns_bind, returns_pure] at h
      obtain ⟨m', _, h, rfl, rfl⟩ := h
      refine ⟨as, bs, m', rfl, rfl, rfl, ?_⟩
      -- the entries that are done are added, and other keys are as they were at the start
      have key := foldlM_induct
        (P := fun done merged g₁ => SumsTo M σ n g g₁ merged
            (fun v => as.eval v + (done.map fun entry => termValue v entry.1 entry.2).sum) ∧
          ∀ key, key ∉ done.map (·.1) → merged[key]? = as[key]?) h
        ⟨⟨hg, .refl g, ha as rfl, fun v _ => by simp⟩, by simp⟩ ?_
      · exact key.1
      · intro done entry merged merged' g₁ g₂ hpre hP hr
        obtain ⟨⟨hg₁, hext₁, hin, heval⟩, hsame⟩ := hP
        have hnew := entry_new hpre
        -- the term is looked up in the sum at the start, where it is as in the merged one
        have hr : Returns (Factors.addTerm merged entry.1 entry.2) g₁ merged' g₂ := by
          rw [Factors.addTerm, hsame _ hnew]
          exact hr
        have hentry := hb bs rfl entry.1 entry.2 (entry_mem hpre)
        obtain ⟨hg₂, hext₂, hin₂, hothers, hv⟩ := addTerm_sound (σ := σ) hM hq hg₁ hin
          (Nat.lt_of_lt_of_le hentry.1 hext₁.size_le) hentry.2 hr
        refine ⟨⟨hg₂, hext₁.trans hext₂, hin₂, fun v hr => ?_⟩, ?_⟩
        · rw [hv v hr, heval v (hext₂.readBy hr)]
          simp only [List.map_append, List.sum_append, List.map_cons, List.map_nil,
            List.sum_cons, List.sum_nil]
          ring
        · intro key' hmem
          obtain ⟨hmem, hne⟩ := not_mem_keys_concat.mp hmem
          rw [hothers key' hne.symm]
          exact hsame key' hmem
    -- a factor without arguments is never added to terms
    · simp at h
  · simp at h

/-- One term times all terms of a sum, added to what is there. -/
theorem termProducts_sound (hM : M.Exact) (hq : M.ExactQuotients) (hg : g.WellFormed)
    {bs out out' : FactorMap} {k : ArgumentKey} {x : NodeId} (hbs : bs.Within n g)
    (hk : ∀ p ∈ k, p < n) (hout : out.Within n g)
    (h : Returns (bs.toList.foldlM (fun out entry => do
      Factors.addTerm out (k ++ entry.1).mergeSort (← Factors.combine .product x entry.2)) out)
      g out' g') :
    SumsTo M σ n g g' out' fun v => out.eval v + termValue v k x * bs.eval v := by
  -- after some of the terms, their products are added to what was there
  refine foldlM_induct
    (P := fun done out₁ g₁ => SumsTo M σ n g g₁ out₁ fun v =>
      out.eval v + termValue v k x * (done.map fun entry => termValue v entry.1 entry.2).sum) h
    ⟨hg, .refl g, hout, fun v _ => by simp⟩ ?_
  intro done entry out₁ out₂ g₁ g₂ hpre hP hr
  obtain ⟨hg₁, hext₁, hin, heval⟩ := hP
  simp only [returns_bind] at hr
  obtain ⟨i, g₃, hi, hr⟩ := hr
  obtain ⟨hg₃, hext₃, hlt, hprod⟩ := combine_sound (σ := σ) hM hq hg₁ (by decide) hi
  -- the positions of a product are those of its two keys
  have hkey : ∀ p ∈ (k ++ entry.1).mergeSort, p < n := by
    intro p hp
    rcases List.mem_append.mp (List.mem_mergeSort.mp hp) with hp | hp
    · exact hk p hp
    · exact (hbs entry.1 entry.2 (entry_mem hpre)).2 p hp
  obtain ⟨hg₂, hext₂, hin₂, -, hv⟩ :=
    addTerm_sound (σ := σ) hM hq hg₃ (hin.mono hext₃) hlt hkey hr
  refine ⟨hg₂, hext₁.trans (hext₃.trans hext₂), hin₂, fun v hr => ?_⟩
  have hterm : termValue v (k ++ entry.1).mergeSort i =
      termValue v k x * termValue v entry.1 entry.2 := by
    rw [← termValue_mul, termValue, hprod v (hext₂.readBy hr), BinaryOp.onValues]
  rw [hv v hr, heval v (hext₃.readBy (hext₂.readBy hr)), hterm]
  simp only [List.map_append, List.sum_append, List.map_cons, List.map_nil, List.sum_cons,
    List.sum_nil]
  ring

/-- The product of two sums multiplies their terms pairwise. -/
theorem terms_product_sound (hM : M.Exact) (hq : M.ExactQuotients) (hg : g.WellFormed)
    {e : Expr R} {as bs : FactorMap} {f : Factors} (ha : as.Within n g) (hb : bs.Within n g)
    (h : Returns (Factors.product e (.terms as) (.terms bs)) g f g') :
    ∃ m', f = .terms m' ∧ SumsTo M σ n g g' m' fun v => as.eval v * bs.eval v := by
  simp only [Factors.product, Std.TreeMap.foldlM_eq_foldlM_toList, returns_bind,
    returns_pure] at h
  obtain ⟨m', _, h, rfl, rfl⟩ := h
  refine ⟨m', rfl, ?_⟩
  -- after some keys of the first operand, each is multiplied by all of the second
  refine foldlM_induct
    (P := fun done out g₁ => SumsTo M σ n g g₁ out fun v =>
      (done.map fun entry => termValue v entry.1 entry.2).sum * bs.eval v) h
    ⟨hg, .refl g, FactorMap.within_empty, fun v _ => by simp [FactorMap.eval]⟩ ?_
  intro done entry out out' g₁ g₂ hpre hP hr
  obtain ⟨hg₁, hext₁, hin, heval⟩ := hP
  have hk := (ha entry.1 entry.2 (entry_mem hpre)).2
  obtain ⟨hg₂, hext₂, hin₂, hv⟩ :=
    termProducts_sound (σ := σ) hM hq hg₁ (hb.mono hext₁) hk hin hr
  refine ⟨hg₂, hext₁.trans hext₂, hin₂, fun v hr => ?_⟩
  rw [hv v hr, heval v (hext₂.readBy hr)]
  simp only [List.map_append, List.sum_append, List.map_cons, List.map_nil, List.sum_cons,
    List.sum_nil]
  ring

/-! ## Operators over represented values -/

/-- Factors in a graph stand for the value `x`. -/
def Factors.Represents (M : Model R K) (σ : Env) (n : Nat) (g : ScalarGraph R) :
    Factors → K → Prop
  | .free i, x => ∃ e, g.expr i = .ok e ∧ e.value M [] σ = x
  | .terms m, x => m.Within n g ∧ ∀ v : NodeId → K, g.ReadBy M σ v → m.eval v = x

namespace Factors

variable {a b f : Factors} {x y : K}

/-- What stands for a value in a graph does so in a larger one. -/
theorem Represents.mono (hf : f.Represents M σ n g x) (h : g.Extends g') :
    f.Represents M σ n g' x := by
  cases f with
  | free i =>
    obtain ⟨e, he, hx⟩ := hf
    exact ⟨e, h.expr he, hx⟩
  | terms m => exact ⟨hf.1.mono h, fun v hv => hf.2 v (h.readBy hv)⟩

/-- A free factor is read off the graph. -/
theorem Represents.read {i : NodeId} (hf : (free i).Represents M σ n g x) {v : NodeId → K}
    (hv : g.ReadBy M σ v) : v i = x := by
  obtain ⟨e, he, hx⟩ := hf
  rw [hv i e he, hx]

end Factors

/-- Terms that sum up to a value stand for it. -/
theorem SumsTo.represents {m : FactorMap} {x : (NodeId → K) → K} (h : SumsTo M σ n g g' m x)
    {y : K} (hxy : ∀ v : NodeId → K, g'.ReadBy M σ v → x v = y) :
    (Factors.terms m).Represents M σ n g' y :=
  ⟨h.within, fun v hv => (h.eval v hv).trans (hxy v hv)⟩

namespace Factors

variable {a b f : Factors} {x y : K} {e : Expr R}

/-- Factors computed from a graph, over the graph they are in. -/
structure Computed (M : Model R K) (σ : Env) (n : Nat) (g : ScalarGraph R) (f : Factors) (x : K)
    (g' : ScalarGraph R) : Prop where
  wellFormed : g'.WellFormed
  grown : g.Extends g'
  represents : f.Represents M σ n g' x

/-- A sum stands for the sum of the values. -/
theorem sum_computed (hM : M.Exact) (hq : M.ExactQuotients) (hg : g.WellFormed)
    (ha : a.Represents M σ n g x) (hb : b.Represents M σ n g y)
    (h : Returns (sum e a b) g f g') : Computed M σ n g f (x + y) g' := by
  obtain ⟨as, bs, m', rfl, rfl, rfl, hm⟩ := sum_sound (n := n) (σ := σ) hM hq hg
    (fun m hm => by subst hm; exact ha.1) (fun m hm => by subst hm; exact hb.1) h
  refine ⟨hm.wellFormed, hm.grown, hm.represents fun v hv => ?_⟩
  have hv := hm.grown.readBy hv
  rw [ha.2 v hv, hb.2 v hv]

/-- Scaling a sum of terms by a value free of arguments. -/
theorem scale_computed (hM : M.Exact) (hq : M.ExactQuotients) (hg : g.WellFormed) {op : BinaryOp}
    (hop : op ≠ .power) {m : FactorMap} (hm : (terms m).Represents M σ n g x) {i : NodeId}
    (hi : (free i).Represents M σ n g y) {s : K → K}
    (hs : ∀ t u : K, op.onValues M t u = t * s u)
    (h : Returns (scale op m i) g f g') : Computed M σ n g f (x * s y) g' := by
  obtain ⟨m', rfl, hm'⟩ :=
    scale_sound (σ := σ) hM hq hg hop hm.1 (s := fun v => s (v i)) (fun v t => hs t (v i)) h
  refine ⟨hm'.wellFormed, hm'.grown, hm'.represents fun v hv => ?_⟩
  have hv := hm'.grown.readBy hv
  rw [hm.2 v hv, hi.read hv]

/-- A product stands for the product of the values. -/
theorem product_computed (hM : M.Exact) (hq : M.ExactQuotients) (hg : g.WellFormed)
    (ha : a.Represents M σ n g x) (hb : b.Represents M σ n g y)
    (hfree : (a.isFree && b.isFree) = false) (h : Returns (product e a b) g f g') :
    Computed M σ n g f (x * y) g' := by
  have hs : ∀ t u : K, BinaryOp.onValues M .product t u = t * u := fun _ _ => rfl
  -- a factor that is free scales the terms of the other
  match a, b with
  | free i, free j => simp [isFree] at hfree
  | free i, terms bs =>
    rw [mul_comm]
    exact scale_computed (s := id) hM hq hg (by decide) hb ha hs h
  | terms as, free j => exact scale_computed (s := id) hM hq hg (by decide) ha hb hs h
  | terms as, terms bs =>
    obtain ⟨m', rfl, hm⟩ := terms_product_sound (σ := σ) hM hq hg ha.1 hb.1 h
    refine ⟨hm.wellFormed, hm.grown, hm.represents fun v hv => ?_⟩
    have hv := hm.grown.readBy hv
    rw [ha.2 v hv, hb.2 v hv]

/-- A quotient stands for the quotient of the values. -/
theorem division_computed (hM : M.Exact) (hq : M.ExactQuotients) (hg : g.WellFormed)
    (ha : a.Represents M σ n g x) (hb : b.Represents M σ n g y)
    (hfree : (a.isFree && b.isFree) = false) (h : Returns (division e a b) g f g') :
    Computed M σ n g f (x / y) g' := by
  match a, b with
  | free i, free j => simp [isFree] at hfree
  | _, terms bs => simp [division] at h
  | terms as, free j =>
    rw [div_eq_mul_inv]
    refine scale_computed (s := fun u => u⁻¹) hM hq hg (by decide) ha hb (fun t u => ?_) h
    rw [BinaryOp.onValues, hq.quotient, div_eq_mul_inv]

/-- Only algebra over two operands is taken over arguments. -/
theorem operator_operands {fs : List Factors} (h : Returns (operator e fs) g f g') :
    ∃ op c d a b, e = .binary op c d ∧ fs = [a, b] := by
  unfold operator at h
  split at h
  · exact ⟨_, _, _, _, _, rfl, rfl⟩
  · exact ⟨_, _, _, _, _, rfl, rfl⟩
  · exact ⟨_, _, _, _, _, rfl, rfl⟩
  · simp at h

/-- An operator over two represented values, of which one depends on an argument. -/
theorem operator_computed (hM : M.Exact) (hq : M.ExactQuotients) (hg : g.WellFormed)
    {op : BinaryOp} {c d : Expr R} (ha : a.Represents M σ n g (c.value M [] σ))
    (hb : b.Represents M σ n g (d.value M [] σ)) (hfree : (a.isFree && b.isFree) = false)
    (h : Returns (operator (.binary op c d) [a, b]) g f g') :
    Computed M σ n g f ((Expr.binary op c d).value M [] σ) g' := by
  rw [Expr.value_binary_scalar]
  cases op with
  | sum => exact sum_computed hM hq hg ha hb h
  | product => exact product_computed hM hq hg ha hb hfree h
  | division =>
    rw [BinaryOp.onValues, hq.quotient]
    exact division_computed hM hq hg ha hb hfree h
  | power => simp [operator] at h

end Factors

end

end WeakForm
