import WeakForm.Proofs.FactorKeys
import WeakForm.Proofs.Reachability

/-!
# Degrees of factors

Nothing in a factorization says how many arguments the terms of a sum have. It is read off the
first key, and what a value without arguments is, is told by its constructor. That this gives
the degree of the value rests on an invariant: all keys of a sum have as many positions as the
degree, which is not zero, and no sum is empty.

Operations on sums keep the invariant where the degrees of the operands permit them, and then
they do not fail: a factor can always be inserted, and no factor is divided by zero. Where the
degrees do not permit the operation, they fail with the error of the operator.

* `ScalarGraph.Completes`, `ScalarGraph.Throws` — computations that end without an error, and
  with one;
* `Factors.OfDegree` — the factors of a value of a degree, `OfDegree.rank` — how it is read off;
* `sum_completes`, `product_completes`, `division_completes` — the operations, and
  `sum_throws`, `division_throws` — where they fail.
-/

namespace WeakForm

open Building ScalarGraph WeakForm.Expr

variable {R : Type} [DecidableEq R] {α β : Type}

/-! ## Computations that end without an error -/

namespace ScalarGraph

variable {g g' : ScalarGraph R} {S : α → ScalarGraph R → Prop} {T : β → ScalarGraph R → Prop}
  {m : Building R α} {f : α → Building R β} {err : Error R}

/-- Started on `g`, the computation ends with a value and a graph of which `S` holds. The graph
extends `g`, and its nodes can be inserted into any graph. -/
def Completes (m : Building R α) (g : ScalarGraph R) (S : α → ScalarGraph R → Prop) : Prop :=
  ∃ a g', Returns m g a g' ∧ Grown Insertable g g' (S a)

/-- Started on `g`, the computation fails with the error. -/
def Throws (m : Building R α) (g : ScalarGraph R) (err : Error R) : Prop :=
  ∃ g', Fails m g err g'

theorem completes_pure {a : α} (hg : g.Carries Insertable) (h : S a g) :
    Completes (pure a) g S :=
  ⟨a, g, returns_pure.mpr ⟨rfl, rfl⟩, hg, .refl g, h⟩

/-- What is known at the end may be weakened. -/
theorem Completes.imp {S' : α → ScalarGraph R → Prop} (h : Completes m g S)
    (himp : ∀ a g', S a g' → S' a g') : Completes m g S' := by
  obtain ⟨a, g', hr, hgrown⟩ := h
  exact ⟨a, g', hr, hgrown.imp (himp a g')⟩

/-- Runs complete one after the other. -/
theorem Completes.bind (hm : Completes m g S)
    (hf : ∀ a g₁, g₁.Carries Insertable → g.Extends g₁ → S a g₁ → Completes (f a) g₁ T) :
    Completes (m >>= f) g T := by
  obtain ⟨a, g₁, hr, hgrown⟩ := hm
  obtain ⟨b, g', hr', hgrown'⟩ := hf a g₁ hgrown.carries hgrown.grown hgrown.holds
  exact ⟨b, g', returns_bind.mpr ⟨a, g₁, hr, hr'⟩, hgrown'.carries,
    hgrown.grown.trans hgrown'.grown, hgrown'.holds⟩

theorem throws_throw : Throws (throw err : Building R α) g err :=
  ⟨g, rfl⟩

theorem Throws.bind (hm : Throws m g err) : Throws (m >>= f) g err :=
  hm.imp fun _ h => fails_bind.mpr (.inl h)

/-- What follows a computation that ends fails. -/
theorem Completes.throws (hm : Completes m g S)
    (hf : ∀ a g₁, g₁.Carries Insertable → g.Extends g₁ → S a g₁ → Throws (f a) g₁ err) :
    Throws (m >>= f) g err := by
  obtain ⟨a, g₁, hr, hgrown⟩ := hm
  obtain ⟨g', hfails⟩ := hf a g₁ hgrown.carries hgrown.grown hgrown.holds
  exact ⟨g', fails_bind.mpr (.inr ⟨a, g₁, hr, hfails⟩)⟩

/-- What follows a computation that ends need not extend the graph. -/
theorem Completes.returns (hm : Completes m g S)
    (hf : ∀ a g₁, g₁.Carries Insertable → S a g₁ → ∃ b g', Returns (f a) g₁ b g') :
    ∃ b g', Returns (m >>= f) g b g' := by
  obtain ⟨a, g₁, hr, hgrown⟩ := hm
  obtain ⟨b, g', hr'⟩ := hf a g₁ hgrown.carries hgrown.holds
  exact ⟨b, g', returns_bind.mpr ⟨a, g₁, hr, hr'⟩⟩

/-- A computation that only reads the graph. -/
theorem Completes.after {a : α} (hm : Returns m g a g) (h : Completes (f a) g T) :
    Completes (m >>= f) g T := by
  obtain ⟨b, g', hr, hgrown⟩ := h
  exact ⟨b, g', returns_bind.mpr ⟨a, g, hm, hr⟩, hgrown⟩

theorem Throws.after {a : α} {g₁ : ScalarGraph R} (hm : Returns m g a g₁)
    (h : Throws (f a) g₁ err) : Throws (m >>= f) g err :=
  h.imp fun _ h => fails_bind.mpr (.inr ⟨a, g₁, hm, h⟩)

/-- A fold ends without an error if every step does that is started on what the steps before
it leave. -/
theorem completes_foldlM {f : β → α → Building R β} {S : List α → β → ScalarGraph R → Prop}
    {items : List α} {b₀ : β} (hg : g.Carries Insertable) (h₀ : S [] b₀ g)
    (step : ∀ (done : List α) (x : α) (b : β) (g₁ : ScalarGraph R), done ++ [x] <+: items →
      g₁.Carries Insertable → g.Extends g₁ → S done b g₁ →
        Completes (f b x) g₁ (S (done ++ [x]))) :
    Completes (items.foldlM f b₀) g (S items) := by
  -- from the end, since what holds is about the items done before
  induction items using List.reverseRecOn with
  | nil => exact completes_pure hg h₀
  | append_singleton items x ih =>
    have hinit := ih fun done y b g₁ hd => step done y b g₁ (hd.trans (List.prefix_append _ _))
    rw [List.foldlM_append]
    refine hinit.bind fun b g₁ hg₁ hext hS => ?_
    rw [List.foldlM_cons]
    refine (step items x b g₁ List.prefix_rfl hg₁ hext hS).bind fun b' g₂ hg₂ _ hS' => ?_
    exact completes_pure hg₂ hS'

/-- What can be inserted is inserted. -/
theorem insert_completes {e : Expr R} (hg : g.Carries Insertable) (he : Insertable e) :
    Completes (insert e) g fun i g' => g'.expr i = .ok e := by
  obtain ⟨i, g', hr⟩ := insert_insertable he g
  have hparts : ∀ e : Expr R, Insertable e → ∀ a ∈ operandsOf e, Insertable a := by
    intro e he a ha
    exact insertable_part (.operand ha .refl) he
  exact ⟨i, g', hr, insert_grows hparts hg he hr⟩

end ScalarGraph

/-! ## Sums of terms of one degree -/

variable {g g' : ScalarGraph R} {d d' : Nat}

/-- A sum of terms that have `d` arguments each, at least one. -/
structure FactorMap.OfDegree (m : FactorMap) (d : Nat) (g : ScalarGraph R) : Prop where
  each : m.Each (·.length = d) Insertable g
  nonempty : ∃ key, key ∈ m

namespace FactorMap

variable {m : FactorMap} {key : ArgumentKey} {x : NodeId}

theorem OfDegree.mono (h : m.OfDegree d g) (hext : g.Extends g') : m.OfDegree d g' :=
  ⟨h.each.mono hext, h.nonempty⟩

theorem ofDegree_insert (hm : m.Each (·.length = d) Insertable g) (hkey : key.length = d)
    (hx : g.NodeWith Insertable x) : FactorMap.OfDegree (m.insert key x) d g :=
  ⟨hm.insert hkey hx, key, Std.TreeMap.mem_insert_self⟩

/-- The keys of a sum have as many positions as it has degree. -/
theorem OfDegree.length (h : m.OfDegree d g) (hkey : key ∈ m) : key.length = d := by
  obtain ⟨f, hf⟩ := Option.isSome_iff_exists.mp (Std.TreeMap.isSome_getElem?_iff_mem.mpr hkey)
  exact (h.each key f hf).1

/-- A map of one degree has an entry. -/
theorem OfDegree.exists_entry (h : m.OfDegree d g) : m.toList ≠ [] := by
  obtain ⟨key, hkey⟩ := h.nonempty
  obtain ⟨f, hf⟩ := Option.isSome_iff_exists.mp (Std.TreeMap.isSome_getElem?_iff_mem.mpr hkey)
  exact List.ne_nil_of_mem (Std.TreeMap.mem_toList_iff_getElem?_eq_some.mpr hf)

/-- A sum that is put together from terms, one for each item. -/
theorem completes_terms {f : FactorMap → ArgumentKey × NodeId → Building R FactorMap}
    {items : List (ArgumentKey × NodeId)} {m₀ : FactorMap} (hg : g.Carries Insertable)
    (hm₀ : m₀.Each (·.length = d) Insertable g) (hne : items ≠ [])
    (step : ∀ entry ∈ items, ∀ (m : FactorMap) (g₁ : ScalarGraph R), g₁.Carries Insertable →
      g.Extends g₁ → m.Each (·.length = d) Insertable g₁ →
        Completes (f m entry) g₁ fun m' g' => m'.OfDegree d g') :
    Completes (items.foldlM f m₀) g fun m g' => m.OfDegree d g' := by
  -- a single entry already gives all terms their degree
  refine (completes_foldlM
    (S := fun done (m : FactorMap) g =>
      m.Each (·.length = d) Insertable g ∧ (done ≠ [] → m.OfDegree d g))
    hg ⟨hm₀, fun h => absurd rfl h⟩ ?_).imp fun m g' h => h.2 hne
  · intro done entry m g₁ hpre hg₁ hext hS
    have hmem : entry ∈ items := hpre.subset (by simp)
    exact (step entry hmem m g₁ hg₁ hext hS.1).imp fun m' g' h => ⟨h.each, fun _ => h⟩

end FactorMap

namespace Factors

/-- The factors of a value of degree `d` that is given by `e`. Without arguments it is a node
with this expression. -/
def OfDegree (e : Expr R) (d : Nat) (g : ScalarGraph R) : Factors → Prop
  | free i => d = 0 ∧ g.expr i = .ok e
  | terms m => 0 < d ∧ m.OfDegree d g

variable {f : Factors} {e c c' : Expr R}

/-- The degree stays, too. -/
theorem OfDegree.mono (h : f.OfDegree e d g) (hext : g.Extends g') : f.OfDegree e d g' := by
  cases f with
  | free i => exact ⟨h.1, hext.expr h.2⟩
  | terms m => exact ⟨h.1, h.2.mono hext⟩

/-- A factor of no degree is free of arguments. -/
theorem OfDegree.isFree_iff (h : f.OfDegree e d g) : f.isFree ↔ d = 0 := by
  cases f with
  | free i => simp [isFree, h.1]
  | terms m => simpa [isFree] using Nat.ne_of_gt h.1

/-- The rank of terms is their degree. -/
theorem rank_terms {m : FactorMap} (h : m.OfDegree d g) : (terms m).rank = d := by
  obtain ⟨key, hkey⟩ := h.nonempty
  rw [rank]
  cases hkeys : m.keys with
  | nil =>
    rw [← Std.TreeMap.mem_keys, hkeys] at hkey
    cases hkey
  | cons first rest =>
    -- the first key has the length of all keys
    have hfirst : first ∈ m := Std.TreeMap.mem_keys.mp (hkeys ▸ List.mem_cons_self)
    simpa using h.length hfirst

/-- **The first key tells the degree.** -/
theorem OfDegree.rank (h : f.OfDegree e d g) : f.rank = d := by
  cases f with
  | free i => exact h.1.symm
  | terms m => exact rank_terms h.2

/-! ## Arithmetic -/

variable [Scalar R] {a b : Factors}

/-- An operator that the factors have is combined. -/
theorem combine_completes {op : BinaryOp} {x y : NodeId} (hg : g.Carries Insertable)
    (hx : g.expr x = .ok c) (hy : g.expr y = .ok c') (h : ∃ r, op.apply c c' = .ok r) :
    Completes (combine op x y) g fun i g' => g'.NodeWith Insertable i := by
  obtain ⟨r, hr⟩ := h
  have hi : Insertable r :=
    (hg.holds x c hx).apply₂ (hg.holds y c' hy) hr
  obtain ⟨i, g', hins, hgrown⟩ := insert_completes hg hi
  exact ⟨i, g', returns_combine.mpr ⟨c, c', r, hx, hy, hr, hins⟩,
    hgrown.imp fun h => ⟨r, h, hi⟩⟩

/-- Sums and products of factors can always be built. -/
theorem combine_completes_ring {op : BinaryOp} (hop : op = .sum ∨ op = .product) {x y : NodeId}
    (hg : g.Carries Insertable) (hx : g.NodeWith Insertable x) (hy : g.NodeWith Insertable y) :
    Completes (combine op x y) g fun i g' => g'.NodeWith Insertable i := by
  obtain ⟨c, hc, hic⟩ := hx
  obtain ⟨c', hc', hic'⟩ := hy
  refine combine_completes hg hc hc' ?_
  rcases hop with rfl | rfl
  · exact add_scalar hic.isScalar hic'.isScalar
  · exact mul_scalar hic.isScalar

/-- A term of the degree is added to a map of it. -/
theorem addTerm_completes {m : FactorMap} {key : ArgumentKey} {x : NodeId}
    (hg : g.Carries Insertable) (hm : m.Each (·.length = d) Insertable g)
    (hkey : key.length = d) (hx : g.NodeWith Insertable x) :
    Completes (addTerm m key x) g fun m' g' => m'.OfDegree d g' := by
  unfold addTerm
  split
  · next previous hp =>
    have hsum := combine_completes_ring (.inl rfl) hg (hm key previous hp).2 hx
    refine hsum.bind fun i g₁ hg₁ hext hi => ?_
    exact completes_pure hg₁ (FactorMap.ofDegree_insert (hm.mono hext) hkey hi)
  · exact completes_pure hg (FactorMap.ofDegree_insert hm hkey hx)

/-- Scaling by a value that every factor can be combined with. -/
theorem scale_completes {op : BinaryOp} {m : FactorMap} {y : NodeId} (hg : g.Carries Insertable)
    (hd : 0 < d) (hm : m.OfDegree d g) (hy : g.expr y = .ok c')
    (hop : ∀ c, Insertable c → ∃ r, op.apply c c' = .ok r) :
    Completes (scale op m y) g fun f g' => f.OfDegree e d g' := by
  rw [scale, Std.TreeMap.foldlM_eq_foldlM_toList]
  refine (FactorMap.completes_terms (d := d) hg FactorMap.each_empty hm.exists_entry ?_).bind
    fun m' g₁ hg₁ _ hm' => completes_pure hg₁ ⟨hd, hm'⟩
  intro entry hentry scaled g₁ hg₁ hext hscaled
  obtain ⟨hkey, c, hc, hi⟩ := hm.each.entry hentry
  have hcombine := combine_completes hg₁ (hext.expr hc) (hext.expr hy) (hop c hi)
  refine hcombine.bind fun i g₂ hg₂ hext₂ hi => ?_
  exact completes_pure hg₂ (FactorMap.ofDegree_insert (hscaled.mono hext₂) hkey hi)

/-- Values of one degree that have arguments have a sum. -/
theorem sum_completes (hg : g.Carries Insertable) (hd : 0 < d) (ha : a.OfDegree c d g)
    (hb : b.OfDegree c' d g) : Completes (sum e a b) g fun f g' => f.OfDegree e d g' := by
  -- values of positive degree are sums of terms
  match a, b with
  | free i, _ => exact absurd ha.1 (Nat.ne_of_gt hd)
  | terms as, free j => exact absurd hb.1 (Nat.ne_of_gt hd)
  | terms as, terms bs =>
    have hkeys : (as.keys ++ bs.keys).all (·.length = d) := by
      rw [List.all_eq_true]
      intro key hkey
      rw [decide_eq_true_eq]
      rcases List.mem_append.mp hkey with hkey | hkey
      · exact ha.2.length (Std.TreeMap.mem_keys.mp hkey)
      · exact hb.2.length (Std.TreeMap.mem_keys.mp hkey)
    simp only [sum, rank_terms ha.2, hkeys, if_true, Std.TreeMap.foldlM_eq_foldlM_toList]
    refine (FactorMap.completes_terms (d := d) hg ha.2.each hb.2.exists_entry ?_).bind
      fun m g₁ hg₁ _ hm => completes_pure hg₁ ⟨hd, hm⟩
    intro entry hentry merged g₁ hg₁ hext hmerged
    obtain ⟨hkey, hy⟩ := hb.2.each.entry hentry
    -- a key of both sums gets the sum of the two factors
    split
    · next x hx =>
      have hx := (ha.2.each _ x hx).2.mono hext
      refine (combine_completes_ring (.inl rfl) hg₁ hx (hy.mono hext)).bind
        fun i g₂ hg₂ hext₂ hi => ?_
      exact completes_pure hg₂ (FactorMap.ofDegree_insert (hmerged.mono hext₂) hkey hi)
    · exact completes_pure hg₁ (FactorMap.ofDegree_insert hmerged hkey (hy.mono hext))

/-- Values of different degrees have none. -/
theorem sum_throws (ha : a.OfDegree c d g) (hb : b.OfDegree c' d' g) (hne : d ≠ d') :
    Throws (sum e a b) g (.mixedRank d d' e) := by
  -- a factor without arguments has degree zero, and the other has not
  cases a with
  | free i =>
    rw [sum, ha.rank, hb.rank]
    · exact throws_throw
    · intro as bs h
      cases h
  | terms as =>
    cases b with
    | free j =>
      rw [sum, ha.rank, hb.rank]
      · exact throws_throw
      · intro as bs _ h
        cases h
    | terms bs =>
      -- a key of the second sum does not have the length of the first one
      have hkeys : (as.keys ++ bs.keys).all (·.length = d) = false := by
        obtain ⟨key, hkey⟩ := hb.2.nonempty
        rw [List.all_eq_false]
        refine ⟨key, List.mem_append_right _ (Std.TreeMap.mem_keys.mpr hkey), ?_⟩
        rw [hb.2.length hkey, decide_eq_true_eq]
        exact hne.symm
      simp only [sum, rank_terms ha.2, rank_terms hb.2, hkeys]
      exact throws_throw.bind

/-- One term times all terms of a sum. -/
theorem termProducts_completes {bs out : FactorMap} {k : ArgumentKey} {x : NodeId}
    (hg : g.Carries Insertable) (hk : k.length = d) (hx : g.NodeWith Insertable x)
    (hbs : bs.OfDegree d' g) (hout : out.Each (·.length = d + d') Insertable g) :
    Completes (bs.toList.foldlM (fun out entry => do
      addTerm out (k ++ entry.1).mergeSort (← combine .product x entry.2)) out) g
        fun m g' => m.OfDegree (d + d') g' := by
  refine FactorMap.completes_terms hg hout hbs.exists_entry ?_
  intro entry hentry out g₁ hg₁ hext hout
  obtain ⟨hl, hy⟩ := hbs.each.entry hentry
  refine (combine_completes_ring (.inr rfl) hg₁ (hx.mono hext) (hy.mono hext)).bind
    fun i g₂ hg₂ hext₂ hi => addTerm_completes hg₂ (hout.mono hext₂) ?_ hi
  rw [List.length_mergeSort, List.length_append, hk, hl]

/-- Values always have a product, and the degrees are added. -/
theorem product_completes (hg : g.Carries Insertable) (hd : 0 < d + d') (ha : a.OfDegree c d g)
    (hb : b.OfDegree c' d' g) :
    Completes (product e a b) g fun f g' => f.OfDegree e (d + d') g' := by
  match a, b with
  | free i, free j =>
    obtain ⟨rfl, rfl⟩ : d = 0 ∧ d' = 0 := ⟨ha.1, hb.1⟩
    exact absurd hd (Nat.lt_irrefl 0)
  | free i, terms bs =>
    obtain ⟨rfl, hi⟩ := ha
    rw [Nat.zero_add]
    exact scale_completes hg hb.1 hb.2 hi fun c hc => mul_scalar hc.isScalar
  | terms as, free j =>
    obtain ⟨rfl, hj⟩ := hb
    exact scale_completes hg ha.1 ha.2 hj fun c hc => mul_scalar hc.isScalar
  | terms as, terms bs =>
    simp only [product, Std.TreeMap.foldlM_eq_foldlM_toList]
    refine (FactorMap.completes_terms (d := d + d') hg FactorMap.each_empty
      ha.2.exists_entry ?_).bind fun m g₁ hg₁ _ hm => completes_pure hg₁ ⟨hd, hm⟩
    intro entry hentry out g₁ hg₁ hext hout
    -- every key of one with every key of the other has the sum of the two degrees
    obtain ⟨hk, hx⟩ := ha.2.each.entry hentry
    exact termProducts_completes hg₁ hk (hx.mono hext) (hb.2.mono hext) hout

/-- A value is divided by one that is free of arguments and not zero. -/
theorem division_completes (hg : g.Carries Insertable) (hd : 0 < d) (ha : a.OfDegree c d g)
    (hb : b.OfDegree c' 0 g) (hz : c'.isZero = false) :
    Completes (division e a b) g fun f g' => f.OfDegree e d g' := by
  match a, b with
  | _, terms bs => exact absurd hb.1 (Nat.lt_irrefl 0)
  | free i, free j => exact absurd ha.1 (Nat.ne_of_gt hd)
  | terms as, free j =>
    have hs : c'.isScalar := (hg.holds j c' hb.2).isScalar
    exact scale_completes hg hd ha.2 hb.2 fun c hc => div_scalar hc.isScalar hs hz

/-- It is not divided by one with arguments. -/
theorem division_throws (hd : 0 < d') (hb : b.OfDegree c' d' g) :
    Throws (division e a b) g (.argumentDivisor e) := by
  match a, b with
  | _, free j => exact absurd hb.1 (Nat.ne_of_gt hd)
  | _, terms bs =>
    rw [division]
    exact throws_throw

end Factors

end WeakForm
