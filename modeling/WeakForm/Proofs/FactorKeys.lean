import WeakForm.Proofs.Factorization
import WeakForm.Proofs.GraphTargets

/-!
# What arithmetic on factors keeps

A key is merged from keys, and the expression of a factor is built over those of other factors
or is that of a node of which no operand has arguments. So what is said of keys can be any `K`,
and what is said of the expressions of factors any `Q`, that these steps keep. All nodes of the
graph of factors are inserted for factors or arguments, so what is said of all of them can be
any `P` that factors and arguments satisfy and that passes to operands.

* `Factors.Keeps` — what the steps of a factorization must keep;
* `ScalarGraph.Grown`, `foldlM_grows` — a computation that extends a well-formed graph, and
  a fold of such;
* `combine_grows`, `scale_grows`, `sum_grows`, `product_grows`, `operator_grows` — arithmetic
  on factors.
-/

namespace WeakForm

open Building ScalarGraph

variable {R : Type} [DecidableEq R]

namespace ScalarGraph

/-- No table is noted about a node. -/
def Unread (g : ScalarGraph R) : Prop :=
  ∀ n ∈ g.nodes, n.table = none

/-- A well-formed graph without tables, and `P` holds of the expressions that its nodes hold. -/
structure Carries (g : ScalarGraph R) (P : Expr R → Prop) : Prop where
  wellFormed : g.WellFormed
  holds : g.Holds P
  unread : g.Unread

/-- `i` is a node of whose expression `Q` holds. -/
def NodeWith (g : ScalarGraph R) (Q : Expr R → Prop) (i : NodeId) : Prop :=
  ∃ e, g.expr i = .ok e ∧ Q e

variable {g g' : ScalarGraph R} {α β : Type} {P Q : Expr R → Prop}

theorem NodeWith.mono {i : NodeId} (h : g.NodeWith Q i) (hext : g.Extends g') : g'.NodeWith Q i :=
  h.imp fun _ he => ⟨hext.expr he.1, he.2⟩

theorem NodeWith.lt_size {i : NodeId} (h : g.NodeWith Q i) : i < g.size := by
  obtain ⟨e, he, -⟩ := h
  exact lt_size_of_expr he

/-- A graph that carries `P` and extends `g`, and of which `S` holds. -/
structure Grown (P : Expr R → Prop) (g g' : ScalarGraph R) (S : ScalarGraph R → Prop) : Prop where
  carries : g'.Carries P
  grown : g.Extends g'
  holds : S g'

theorem Grown.imp {S T : ScalarGraph R → Prop} (h : Grown P g g' S) (hST : S g' → T g') :
    Grown P g g' T :=
  ⟨h.carries, h.grown, hST h.holds⟩

/-- A fold of steps that extend the graph extends it. -/
theorem foldlM_grows {f : β → α → Building R β} {S : β → ScalarGraph R → Prop} {items : List α}
    {b₀ b : β} (hg : g.Carries P) (h₀ : S b₀ g)
    (step : ∀ x ∈ items, ∀ (b₁ b₂ : β) (g₁ g₂ : ScalarGraph R), g₁.Carries P → g.Extends g₁ →
      S b₁ g₁ → Returns (f b₁ x) g₁ b₂ g₂ → Grown P g₁ g₂ (S b₂))
    (h : Returns (items.foldlM f b₀) g b g') : Grown P g g' (S b) := by
  refine foldlM_induct (P := fun _ b₁ g₁ => Grown P g g₁ (S b₁)) h ⟨hg, .refl g, h₀⟩ ?_
  intro done x b₁ b₂ g₁ g₂ hpre hS hr
  have hx : x ∈ items := hpre.subset (List.mem_append_right _ (List.mem_singleton.mpr rfl))
  have hstep := step x hx b₁ b₂ g₁ g₂ hS.carries hS.grown hS.holds hr
  exact ⟨hstep.carries, hS.grown.trans hstep.grown, hstep.holds⟩

theorem unread_empty : ({} : ScalarGraph R).Unread := by
  intro n hn
  simp at hn

/-- A pushed node is not read yet. -/
theorem Unread.push (hg : g.Unread) (e : Expr R) (operands : List NodeId) :
    (g.push e operands).Unread := by
  intro n hn
  rcases Array.mem_push.mp hn with hn | rfl
  · exact hg n hn
  · rfl

/-- Nothing is noted about the nodes that are inserted. -/
theorem insert_unread (hg : g.Unread) {e : Expr R} {i : NodeId} (h : Returns (insert e) g i g') :
    g'.Unread :=
  insert_induct (P := fun _ => True) (T := Unread) (fun _ _ _ _ => trivial)
    (fun _ e operands hg _ => hg.push e operands) hg trivial h

/-- An expression of which `P` holds, and with it of all its parts, is inserted. -/
theorem insert_grows (hP : ∀ e, P e → ∀ a ∈ operandsOf e, P a) (hg : g.Carries P) {e : Expr R}
    (he : P e) {i : NodeId} (h : Returns (insert e) g i g') :
    Grown P g g' fun g => g.expr i = .ok e :=
  have hi := insert_returns hg.wellFormed h
  ⟨⟨hi.wellFormed, insert_keeps hP hg.holds he h, insert_unread hg.unread h⟩, hi.grown, hi.expr⟩

end ScalarGraph

/-! ## Keys and factors -/

namespace FactorMap

/-- `K` holds of every key, and `Q` of the expression of every factor. -/
def Each (K : ArgumentKey → Prop) (Q : Expr R → Prop) (m : FactorMap) (g : ScalarGraph R) : Prop :=
  ∀ (key : ArgumentKey) (f : NodeId), m[key]? = some f → K key ∧ g.NodeWith Q f

variable {K : ArgumentKey → Prop} {Q : Expr R → Prop} {g g' : ScalarGraph R} {m : FactorMap}

theorem each_empty : Each K Q ∅ g := by
  intro key f h
  simp at h

theorem Each.mono (hm : m.Each K Q g) (h : g.Extends g') : m.Each K Q g' :=
  fun key f hf => ⟨(hm key f hf).1, (hm key f hf).2.mono h⟩

/-- One entry more that it holds of. -/
theorem Each.insert (hm : m.Each K Q g) {key : ArgumentKey} {f : NodeId} (hkey : K key)
    (hf : g.NodeWith Q f) : FactorMap.Each K Q (m.insert key f) g := by
  intro key' f' h
  rcases entry_of_insert h with ⟨rfl, rfl⟩ | h
  · exact ⟨hkey, hf⟩
  · exact hm key' f' h

theorem Each.entry (hm : m.Each K Q g) {entry : ArgumentKey × NodeId} (h : entry ∈ m.toList) :
    K entry.1 ∧ g.NodeWith Q entry.2 :=
  hm entry.1 entry.2 (Std.TreeMap.mem_toList_iff_getElem?_eq_some.mp h)

end FactorMap

/-! ## Arithmetic on factors -/

namespace Factors

variable [Scalar R] {K : ArgumentKey → Prop} {P Q : Expr R → Prop} {g g' : ScalarGraph R}

/-- What the steps of a factorization keep: `K` of keys, `Q` of the expressions of factors, and
`P` of those of all nodes. -/
structure Keeps (K : ArgumentKey → Prop) (P Q : Expr R → Prop) : Prop where
  none : K []
  product : ∀ {k l : ArgumentKey}, K k → K l → K (k ++ l).mergeSort
  apply : ∀ {op : BinaryOp} {a b r : Expr R}, Q a → Q b → op.apply a b = .ok r → Q r
  factor : ∀ {e : Expr R}, Q e → P e
  operands : ∀ e, P e → ∀ a ∈ operandsOf e, P a

/-- `K` holds of the keys, and `Q` of the expressions of the factors. -/
def Each (K : ArgumentKey → Prop) (Q : Expr R → Prop) (g : ScalarGraph R) : Factors → Prop
  | free i => g.NodeWith Q i
  | terms m => m.Each K Q g

omit [Scalar R] in
/-- A value keeps what its keys and factors satisfy. -/
theorem Each.mono {f : Factors} (h : f.Each K Q g) (hext : g.Extends g') : f.Each K Q g' := by
  cases f with
  | free i => exact NodeWith.mono h hext
  | terms m => exact FactorMap.Each.mono h hext

/-- A new factor is inserted. -/
theorem insertFactor_grows (hk : Keeps K P Q) (hg : g.Carries P) {e : Expr R} (he : Q e)
    {i : NodeId} (h : Returns (insert e) g i g') : Grown P g g' (·.NodeWith Q i) :=
  (insert_grows hk.operands hg (hk.factor he) h).imp fun hi => ⟨e, hi, he⟩

/-- Combining two factors inserts what can be inserted. -/
theorem combine_grows (hk : Keeps K P Q) (hg : g.Carries P) {op : BinaryOp} {x y i : NodeId}
    (hx : g.NodeWith Q x) (hy : g.NodeWith Q y) (h : Returns (combine op x y) g i g') :
    Grown P g g' (·.NodeWith Q i) := by
  obtain ⟨a, b, e, ha, hb, he, h⟩ := returns_combine.mp h
  obtain ⟨a', ha', hqa⟩ := hx
  obtain ⟨b', hb', hqb⟩ := hy
  obtain rfl : a' = a := Except.ok.inj (ha'.symm.trans ha)
  obtain rfl : b' = b := Except.ok.inj (hb'.symm.trans hb)
  exact insertFactor_grows hk hg (hk.apply hqa hqb he) h

/-- Adding a term inserts at most one factor. -/
theorem addTerm_grows (hk : Keeps K P Q) (hg : g.Carries P) {m m' : FactorMap}
    {key : ArgumentKey} {x : NodeId} (hm : m.Each K Q g) (hkey : K key) (hx : g.NodeWith Q x)
    (h : Returns (addTerm m key x) g m' g') : Grown P g g' (m'.Each K Q) := by
  unfold addTerm at h
  split at h
  -- the key is there already
  · next previous hp =>
    simp only [returns_bind, returns_pure] at h
    obtain ⟨i, _, hi, rfl, rfl⟩ := h
    have hi := combine_grows hk hg (hm key previous hp).2 hx hi
    exact ⟨hi.carries, hi.grown, (hm.mono hi.grown).insert hkey hi.holds⟩
  · obtain ⟨rfl, rfl⟩ := returns_pure.mp h
    exact ⟨hg, .refl g, hm.insert hkey hx⟩

/-- Scaling goes entry by entry. -/
theorem scale_grows (hk : Keeps K P Q) (hg : g.Carries P) {op : BinaryOp} {m : FactorMap}
    (hm : m.Each K Q g) {y : NodeId} (hy : g.NodeWith Q y) {f : Factors}
    (h : Returns (scale op m y) g f g') :
    ∃ m', f = .terms m' ∧ Grown P g g' (m'.Each K Q) := by
  simp only [scale, Std.TreeMap.foldlM_eq_foldlM_toList, returns_bind, returns_pure] at h
  obtain ⟨m', _, h, rfl, rfl⟩ := h
  refine ⟨m', rfl, foldlM_grows (S := fun (scaled : FactorMap) g => scaled.Each K Q g) hg
    FactorMap.each_empty ?_ h⟩
  -- scaling keeps the key of a term
  intro entry hentry scaled scaled' g₁ g₂ hg₁ hext hin hr
  simp only [returns_bind, returns_pure] at hr
  obtain ⟨i, _, hi, rfl, rfl⟩ := hr
  obtain ⟨hkey, hx⟩ := hm.entry hentry
  have hi := combine_grows hk hg₁ (hx.mono hext) (hy.mono hext) hi
  exact ⟨hi.carries, hi.grown, (hin.mono hi.grown).insert hkey hi.holds⟩

/-- Adding two sums of terms goes entry by entry of the second. -/
theorem sum_grows (hk : Keeps K P Q) (hg : g.Carries P) {e : Expr R} {a b f : Factors}
    (ha : a.Each K Q g) (hb : b.Each K Q g) (h : Returns (sum e a b) g f g') :
    ∃ m, f = .terms m ∧ Grown P g g' (m.Each K Q) := by
  unfold sum at h
  split at h
  · -- one key at a time is merged, and the invariant is said of what is merged
    next as bs =>
    split at h
    · simp only [Std.TreeMap.foldlM_eq_foldlM_toList, returns_bind, returns_pure] at h
      obtain ⟨m', _, h, rfl, rfl⟩ := h
      have has : as.Each K Q g := ha
      refine ⟨m', rfl, foldlM_grows (S := fun (merged : FactorMap) g => merged.Each K Q g) hg
        has ?_ h⟩
      intro entry hentry merged merged' g₁ g₂ hg₁ hext hin hr
      obtain ⟨hkey, hy⟩ := FactorMap.Each.entry hb hentry
      -- a key that is there already is added to, so a node is inserted
      split at hr
      · next x hx =>
        simp only [returns_bind, returns_pure] at hr
        obtain ⟨i, _, hi, rfl, rfl⟩ := hr
        have hi := combine_grows hk hg₁ ((has _ x hx).2.mono hext) (hy.mono hext) hi
        exact ⟨hi.carries, hi.grown, (hin.mono hi.grown).insert hkey hi.holds⟩
      · -- a new key keeps its node
        obtain ⟨rfl, rfl⟩ := returns_pure.mp hr
        exact ⟨hg₁, .refl g₁, hin.insert hkey (hy.mono hext)⟩
    · simp at h
  · simp at h

/-- One term times all terms of a sum. -/
theorem termProducts_grows (hk : Keeps K P Q) (hg : g.Carries P) {bs out out' : FactorMap}
    {k : ArgumentKey} {x : NodeId} (hbs : bs.Each K Q g) (hkey : K k) (hx : g.NodeWith Q x)
    (hout : out.Each K Q g) (h : Returns (bs.toList.foldlM (fun out entry => do
      addTerm out (k ++ entry.1).mergeSort (← combine .product x entry.2)) out) g out' g') :
    Grown P g g' (out'.Each K Q) := by
  refine foldlM_grows (S := fun (out : FactorMap) g => out.Each K Q g) hg hout ?_ h
  intro entry hentry out₁ out₂ g₁ g₂ hg₁ hext hin hr
  simp only [returns_bind] at hr
  obtain ⟨i, g₃, hi, hr⟩ := hr
  obtain ⟨hkey', hy⟩ := hbs.entry hentry
  have hi := combine_grows hk hg₁ (hx.mono hext) (hy.mono hext) hi
  have hadd := addTerm_grows hk hi.carries (hin.mono hi.grown) (hk.product hkey hkey') hi.holds hr
  exact ⟨hadd.carries, hi.grown.trans hadd.grown, hadd.holds⟩

/-- Multiplying two sums of terms inserts one product for each pair. -/
theorem product_grows (hk : Keeps K P Q) (hg : g.Carries P) {e : Expr R} {a b f : Factors}
    (ha : a.Each K Q g) (hb : b.Each K Q g) (hfree : (a.isFree && b.isFree) = false)
    (h : Returns (product e a b) g f g') : ∃ m, f = .terms m ∧ Grown P g g' (m.Each K Q) := by
  unfold product at h
  split at h
  · -- only one operand has arguments, and the other scales it
    exact scale_grows hk hg hb ha h
  -- the left operand has the arguments
  · exact scale_grows hk hg ha hb h
  · -- both have: every key of one with every key of the other
    next as bs =>
    simp only [Std.TreeMap.foldlM_eq_foldlM_toList, returns_bind, returns_pure] at h
    obtain ⟨m', _, h, rfl, rfl⟩ := h
    refine ⟨m', rfl, foldlM_grows (S := fun (out : FactorMap) g => out.Each K Q g) hg
      FactorMap.each_empty ?_ h⟩
    intro entry hentry out out' g₁ g₂ hg₁ hext hin hr
    have hbs : bs.Each K Q g₁ := FactorMap.Each.mono hb hext
    obtain ⟨hkey, hx⟩ := FactorMap.Each.entry ha hentry
    exact termProducts_grows hk hg₁ hbs hkey (hx.mono hext) hin hr
  · cases hfree

/-- A quotient is taken of the terms of the dividend. -/
theorem division_grows (hk : Keeps K P Q) (hg : g.Carries P) {e : Expr R} {a b f : Factors}
    (ha : a.Each K Q g) (hb : b.Each K Q g) (hfree : (a.isFree && b.isFree) = false)
    (h : Returns (division e a b) g f g') : ∃ m, f = .terms m ∧ Grown P g g' (m.Each K Q) := by
  unfold division at h
  split at h
  · simp at h
  · exact scale_grows hk hg ha hb h
  · cases hfree

/-- An operator over values of which one has arguments gives terms. -/
theorem operator_grows (hk : Keeps K P Q) (hg : g.Carries P) {e : Expr R} {fs : List Factors}
    {f : Factors} (hfs : ∀ f ∈ fs, f.Each K Q g) (hfree : fs.all (·.isFree) = false)
    (h : Returns (operator e fs) g f g') : ∃ m, f = .terms m ∧ Grown P g g' (m.Each K Q) := by
  unfold operator at h
  split at h
  · exact sum_grows hk hg (hfs _ (by simp)) (hfs _ (by simp)) h
  · exact product_grows hk hg (hfs _ (by simp)) (hfs _ (by simp)) (by simpa using hfree) h
  · exact division_grows hk hg (hfs _ (by simp)) (hfs _ (by simp)) (by simpa using hfree) h
  · simp at h

end Factors

end WeakForm
