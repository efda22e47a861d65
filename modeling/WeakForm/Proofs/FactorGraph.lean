import WeakForm.Proofs.FactorKeys

/-!
# The graph of factors

Whatever numbers stand for, the graph that a factorization builds is put together by
insertions only: it is well formed, the argument vector is its first nodes, and every term
names a node of it and arguments of the vector. Nothing here depends on what operators mean,
so literals need not be exact.

* `collectTerms_getElem?`, `TermTable.Collected` — the terms of some components;
* `useFactors_targets` — the factors in use become targets, each once;
* `sweepNode_grows`, `sweepNodes_grows`, `sweep_swept` — one node, all nodes, and the sweep;
* `factorize_swept`, `factorize_formed` — the factorization of a well-formed graph;
* `factorize_holds` — what all of its nodes have.
-/

namespace WeakForm

open Building ScalarGraph

variable {R : Type} [DecidableEq R]

/-! ## The terms of all targets -/

section Terms

/-- A use under one key, as read under any key. -/
theorem TermTable.getElem?_addUse (terms : TermTable) (key key' : ArgumentKey)
    (use : NodeId × Nat) : (terms.addUse key use)[key']? =
      if key = key' then some (terms.getD key [] ++ [use]) else terms[key']? := by
  rw [TermTable.addUse, Std.TreeMap.getElem?_insert]
  simp only [Std.LawfulEqCmp.compare_eq_iff_eq]

/-- Collecting the terms of a component adds one use to every key that the component has, and
leaves the others. -/
theorem collectTerms_getElem? (terms : TermTable) (m : FactorMap) (c : Nat) (key : ArgumentKey) :
    (∀ f, m[key]? = some f →
      (collectTerms terms m c)[key]? = some (terms.getD key [] ++ [(f, c)])) ∧
    (m[key]? = none → (collectTerms terms m c)[key]? = terms[key]?) := by
  -- generalized to some entries with different keys
  suffices H : ∀ (entries : List (ArgumentKey × NodeId)) (terms : TermTable),
      (entries.map (·.1)).Nodup →
      let collected := entries.foldl (fun terms entry => terms.addUse entry.1 (entry.2, c)) terms
      (∀ f, (key, f) ∈ entries → collected[key]? = some (terms.getD key [] ++ [(f, c)])) ∧
        (key ∉ entries.map (·.1) → collected[key]? = terms[key]?) by
    have hkeys : m.toList.map (·.1) = m.keys := Std.TreeMap.map_fst_toList_eq_keys
    -- the entries of the map have different keys
    obtain ⟨hmem, hnot⟩ := H m.toList terms (hkeys ▸ Std.TreeMap.nodup_keys)
    rw [collectTerms, Std.TreeMap.foldl_eq_foldl_toList]
    refine ⟨fun f hf => hmem f (Std.TreeMap.mem_toList_iff_getElem?_eq_some.mpr hf), fun hf => ?_⟩
    refine hnot fun h => ?_
    rw [hkeys, Std.TreeMap.mem_keys, ← Std.TreeMap.isSome_getElem?_iff_mem, hf] at h
    cases h
  intro entries
  induction entries with
  | nil => simp
  | cons entry rest ih =>
    intro terms hnodup
    rw [List.map_cons, List.nodup_cons] at hnodup
    obtain ⟨hmem, hnot⟩ := ih (terms.addUse entry.1 (entry.2, c)) hnodup.2
    rw [List.foldl_cons]
    refine ⟨fun f hf => ?_, fun hkey => ?_⟩
    · rcases List.mem_cons.mp hf with rfl | hf
      · -- no entry after it has its key
        rw [hnot hnodup.1, TermTable.getElem?_addUse, if_pos rfl]
      · have hne : entry.1 ≠ key := fun h => hnodup.1 (h ▸ List.mem_map_of_mem hf)
        rw [hmem f hf, Std.TreeMap.getD_eq_getD_getElem?, TermTable.getElem?_addUse, if_neg hne,
          Std.TreeMap.getD_eq_getD_getElem?]
    · rw [List.map_cons, List.mem_cons, not_or] at hkey
      rw [hnot hkey.2, TermTable.getElem?_addUse, if_neg (Ne.symm hkey.1)]

/-- `f` is a factor of some term. -/
def TermTable.InUse (terms : TermTable) (f : NodeId) : Prop :=
  ∃ (key : ArgumentKey) (uses : List (NodeId × Nat)) (c : Nat),
    terms[key]? = some uses ∧ (f, c) ∈ uses

/-- A factor in use is one that some key names. -/
theorem mem_flatMap_iff_inUse {terms : TermTable} {f : NodeId} :
    f ∈ (terms.toList.flatMap fun x => x.2.map (·.1)) ↔ terms.InUse f := by
  rw [List.mem_flatMap]
  constructor
  · rintro ⟨⟨key, uses⟩, hentry, hf⟩
    obtain ⟨⟨f', c⟩, huse, rfl⟩ := List.mem_map.mp hf
    exact ⟨key, uses, c, Std.TreeMap.mem_toList_iff_getElem?_eq_some.mp hentry, huse⟩
  · rintro ⟨key, uses, c, hkey, huse⟩
    exact ⟨(key, uses), Std.TreeMap.mem_toList_iff_getElem?_eq_some.mpr hkey,
      List.mem_map_of_mem huse⟩

variable {K : ArgumentKey → Prop} {P Q : Expr R → Prop} {g g' : ScalarGraph R} {rank done : Nat}

/-- The uses of a key when the terms of `done` components are collected: the components ascend
strictly, so no component has two factors. -/
structure KeyUses (K : ArgumentKey → Prop) (Q : Expr R → Prop) (rank done : Nat)
    (g : ScalarGraph R) (key : ArgumentKey) (uses : List (NodeId × Nat)) : Prop where
  ofKey : K key
  length : key.length = rank
  factor : ∀ use ∈ uses, g.NodeWith Q use.1
  ascending : (uses.map (·.2)).Pairwise (· < ·)
  below : ∀ use ∈ uses, use.2 < done

/-- The terms of the first `done` components. -/
def TermTable.Collected (K : ArgumentKey → Prop) (Q : Expr R → Prop) (rank done : Nat)
    (terms : TermTable) (g : ScalarGraph R) : Prop :=
  ∀ (key : ArgumentKey) (uses : List (NodeId × Nat)), terms[key]? = some uses →
    KeyUses K Q rank done g key uses

/-- One more component. -/
theorem TermTable.Collected.collectTerms {terms : TermTable}
    (h : terms.Collected K Q rank done g) {m : FactorMap}
    (hm : m.Each (fun key => K key ∧ key.length = rank) Q g) :
    TermTable.Collected K Q rank (done + 1) (collectTerms terms m done) g := by
  intro key uses huses
  obtain ⟨hsome, hnone⟩ := collectTerms_getElem? terms m done key
  cases hf : m[key]? with
  -- a key without a factor for this component keeps the uses it had
  | none =>
    rw [hnone hf] at huses
    have hold := h key uses huses
    exact { hold with below := fun use huse => Nat.lt_succ_of_lt (hold.below use huse) }
  | some f =>
    obtain ⟨⟨hkey, hlength⟩, hnode⟩ := hm key f hf
    -- the uses before it are of smaller components
    have hold : KeyUses K Q rank done g key (terms.getD key []) := by
      rw [Std.TreeMap.getD_eq_getD_getElem?]
      cases hold : terms[key]? with
      | none => exact ⟨hkey, hlength, by simp, by simp, by simp⟩
      | some old => exact h key old hold
    rw [hsome f hf, Option.some.injEq] at huses
    subst huses
    refine ⟨hkey, hlength, fun use huse => ?_, ?_, fun use huse => ?_⟩
    · rcases List.mem_append.mp huse with huse | huse
      · exact hold.factor use huse
      · rw [List.mem_singleton.mp huse]
        exact hnode
    · rw [List.map_append, List.pairwise_append]
      refine ⟨hold.ascending, List.pairwise_singleton _ _, fun c hc c' hc' => ?_⟩
      obtain ⟨use, huse, rfl⟩ := List.mem_map.mp hc
      rw [List.map_singleton, List.mem_singleton] at hc'
      rw [hc']
      exact hold.below use huse
    · rcases List.mem_append.mp huse with huse | huse
      · exact Nat.lt_succ_of_lt (hold.below use huse)
      · rw [List.mem_singleton.mp huse]
        exact Nat.lt_succ_self done

variable [Scalar R] {g₀ : ScalarGraph R}

/-- The terms of a target have as many arguments as the form. -/
theorem targetTerms_each (hk : Factors.Keeps K P Q) {e : Expr R} {f : Factors}
    (hf : f.Each K Q g) {m : FactorMap} (h : Returns (targetTerms rank e f) g m g') :
    g = g' ∧ m.Each (fun key => K key ∧ key.length = rank) Q g := by
  unfold targetTerms at h
  split at h
  · -- an integrand with arguments has them as its terms
    next factors =>
    split at h
    · simp at h
    · next hlengths =>
      obtain ⟨rfl, rfl⟩ := returns_pure.mp h
      refine ⟨rfl, fun key f hfactor => ?_⟩
      obtain ⟨hkey, hnode⟩ := hf key f hfactor
      refine ⟨⟨hkey, ?_⟩, hnode⟩
      have hmem : key ∈ factors.keys := by
        rw [Std.TreeMap.mem_keys, ← Std.TreeMap.isSome_getElem?_iff_mem, hfactor]
        rfl
      simpa using List.find?_eq_none.mp hlengths key hmem
  · -- one without them has its node under the empty key, for a functional only
    split at h
    · next hrank =>
      obtain ⟨rfl, rfl⟩ := returns_pure.mp h
      exact ⟨rfl, FactorMap.each_empty.insert ⟨hk.none, hrank.symm⟩ hf⟩
    · -- for a form it must be zero, and then has no terms
      simp only [returns_bind, returns_get, returns_lift] at h
      obtain ⟨_, _, ⟨rfl, rfl⟩, e', _, ⟨-, rfl⟩, h⟩ := h
      split at h
      · obtain ⟨rfl, rfl⟩ := returns_pure.mp h
        exact ⟨rfl, FactorMap.each_empty⟩
      · simp at h

/-- The terms of all targets, which only read the graph. -/
theorem collectTargets_collected (hk : Factors.Keeps K P Q) {swept : Array Factors}
    (hswept : ∀ f ∈ swept, f.Each K Q g) {terms : TermTable}
    (h : Returns (g₀.targets.toList.zipIdx.foldlM (m := Building R)
      (fun terms x => do
        let factors ← sweptOperand swept x.1
        return collectTerms terms (← targetTerms rank (← g₀.expr x.1) factors) x.2) ∅)
      g terms g') : g = g' ∧ terms.Collected K Q rank g₀.targets.size g := by
  have key := foldlM_induct
    (P := fun done (terms : TermTable) g₁ => g = g₁ ∧ terms.Collected K Q rank done.length g) h
    -- at first nothing is collected
    ⟨rfl, fun key uses hu => by simp at hu⟩ ?_
  · simpa using key
  · intro done x terms terms' g₁ g₂ hpre hP hr
    obtain ⟨rfl, hcollected⟩ := hP
    simp only [returns_bind, returns_pure, returns_lift] at hr
    obtain ⟨f, g₃, hf, e, _, ⟨-, rfl⟩, m, g₄, hm, rfl, rfl⟩ := hr
    unfold sweptOperand at hf
    split at hf
    · next f' hf' =>
      obtain ⟨rfl, rfl⟩ := returns_pure.mp hf
      obtain ⟨rfl, heach⟩ := targetTerms_each hk (hswept f' (Array.mem_of_getElem? hf')) hm
      -- the component that is collected next is the number of those that are done
      rw [(item_of_done hpre).2, List.length_append, List.length_singleton]
      exact ⟨rfl, hcollected.collectTerms heach⟩
    · simp at hf

end Terms

/-! ## The factors in use -/

namespace ScalarGraph

/-- The targets are the factors in use and the targets before, each once. -/
theorem useFactors_targets (fs : List NodeId) {g : ScalarGraph R} (hg : g.targets.toList.Nodup) :
    (fs.foldl useFactor g).targets.toList.Nodup ∧
      ∀ t, t ∈ (fs.foldl useFactor g).targets ↔ t ∈ g.targets ∨ t ∈ fs := by
  induction fs generalizing g with
  | nil => simp [hg]
  | cons f fs ih =>
    rw [List.foldl_cons]
    by_cases hf : f ∈ g.targets
    · -- a target already
      have hsame : useFactor g f = g := by
        rw [useFactor, isTarget, if_pos (Array.contains_iff_mem.mpr hf)]
      rw [hsame]
      refine ⟨(ih hg).1, fun t => ((ih hg).2 t).trans ?_⟩
      rw [List.mem_cons]
      constructor
      · exact Or.imp_right .inr
      · rintro (h | rfl | h)
        · exact .inl h
        · exact .inl hf
        · exact .inr h
    · have hpush : useFactor g f = g.pushTarget f := by
        rw [useFactor, isTarget, if_neg fun h => hf (Array.contains_iff_mem.mp h)]
      rw [hpush]
      -- the new target is none of those before
      have hnodup : (g.pushTarget f).targets.toList.Nodup := by
        rw [pushTarget, Array.toList_push, ← List.concat_eq_append]
        exact hg.concat fun h => hf (Array.mem_toList_iff.mp h)
      refine ⟨(ih hnodup).1, fun t => ((ih hnodup).2 t).trans ?_⟩
      rw [pushTarget, Array.mem_push, List.mem_cons, or_assoc]

/-- With targets that are nodes, a well-formed graph stays so. -/
theorem useFactors_wellFormed {g : ScalarGraph R} {fs : List NodeId} (hg : g.WellFormed)
    (hfs : ∀ f ∈ fs, f < g.size) : (fs.foldl useFactor g).WellFormed := by
  induction fs generalizing g with
  | nil => exact hg
  | cons f fs ih =>
    have hpush : (useFactor g f).WellFormed ∧ (useFactor g f).size = g.size := by
      unfold useFactor
      split
      · -- a target already
        exact ⟨hg, rfl⟩
      · -- one more target: the nodes stay
        refine ⟨⟨fun i n hn => { hg.nodes i n hn with }, hg.index, fun t ht => ?_⟩, rfl⟩
        rcases Array.mem_push.mp ht with ht | rfl
        · exact hg.targets t ht
        · exact hfs t List.mem_cons_self
    rw [List.foldl_cons]
    refine ih hpush.1 fun f' hf' => ?_
    rw [hpush.2]
    exact hfs f' (List.mem_cons_of_mem _ hf')

/-! ## The sweep -/

variable {K : ArgumentKey → Prop} {P Q : Expr R → Prop} {rank : Nat} {g₀ g g' : ScalarGraph R}

/-- Nodes that are swept and have no arguments hold expressions of which `Q` holds. -/
def SweptFree (Q : Expr R → Prop) (g₀ : ScalarGraph R) (swept : Array Factors) : Prop :=
  ∀ (j : NodeId) (f : Factors), swept[j]? = some f → f.isFree → g₀.NodeWith Q j

variable [Scalar R]

/-- The factors of one node, given those of the nodes before it. -/
theorem sweepNode_grows (hk : Factors.Keeps K P Q) (hg : g.Carries P)
    {position? : NodeId → Option Nat} (hpos : ∀ i p, position? i = some p → K [p]) {one : NodeId}
    (hone : g.NodeWith Q one) {swept : Array Factors} (hswept : ∀ f ∈ swept, f.Each K Q g)
    (hsweptFree : SweptFree Q g₀ swept) {node : Node R} {i : NodeId} (hn : g₀.NodeFormed i node)
    (hfree : position? i = none → (∀ a ∈ operandsOf node.expr, Q a) → Q node.expr) {f : Factors}
    (h : Returns (sweepNode position? one swept node i) g f g') :
    Grown P g g' (f.Each K Q) ∧ (f.isFree → Q node.expr) := by
  cases returns_sweepNode.mp h with
  | argument hp =>
    refine ⟨⟨hg, .refl g, FactorMap.each_empty.insert (hpos i _ hp) hone⟩, fun hf => ?_⟩
    cases hf
  | free hp hfs hall hi =>
    -- the node is free of arguments, as its operands are
    have hnode : Q node.expr := by
      refine hfree hp fun a ha => ?_
      obtain ⟨j, hj, -, hja⟩ := exists_left_of_mem hn.operands ha
      obtain ⟨k, hjk⟩ := List.mem_iff_getElem?.mp hj
      obtain ⟨f, hf, hjf⟩ := exists_right_of_getElem? hfs hjk
      obtain ⟨e, he, hq⟩ :=
        hsweptFree j f hjf (List.all_eq_true.mp hall f (List.mem_of_getElem? hf))
      rwa [Except.ok.inj (hja.symm.trans he)]
    exact ⟨Factors.insertFactor_grows hk hg hnode hi, fun _ => hnode⟩
  | @operator fs _ _ hp hfs hall hoperator =>
    have heach : ∀ f ∈ fs, f.Each K Q g := by
      intro f hf
      obtain ⟨j, -, hj⟩ := exists_left_of_mem hfs hf
      exact hswept f (Array.mem_of_getElem? hj)
    obtain ⟨m, rfl, hm⟩ := Factors.operator_grows hk hg heach hall hoperator
    refine ⟨hm, fun hf => ?_⟩
    cases hf

/-- The factors of all nodes. -/
theorem sweepNodes_grows (hk : Factors.Keeps K P Q) (hg₀ : g₀.WellFormed) (hg : g.Carries P)
    {position? : NodeId → Option Nat} (hpos : ∀ i p, position? i = some p → K [p]) {one : NodeId}
    (hone : g.NodeWith Q one)
    (hfree : ∀ i n, g₀.nodes[i]? = some n → position? i = none →
      (∀ a ∈ operandsOf n.expr, Q a) → Q n.expr) {swept : Array Factors}
    (h : Returns (g₀.nodes.toList.zipIdx.foldlM
      (fun swept x => do return swept.push (← sweepNode position? one swept x.1 x.2)) #[])
      g swept g') :
    Grown P g g' fun g => ∀ f ∈ swept, f.Each K Q g := by
  have key := foldlM_induct
    (P := fun done (swept : Array Factors) g₁ =>
      Grown P g g₁ (fun g => ∀ f ∈ swept, f.Each K Q g) ∧ swept.size = done.length ∧
        SweptFree Q g₀ swept) h
    ⟨⟨hg, .refl g, by simp⟩, rfl, fun j f hj => by simp at hj⟩ ?_
  · exact key.1
  -- the invariant says that each swept factor fits the graph as it stands now
  · intro done x swept swept' g₁ g₂ hpre hP hr
    obtain ⟨hg₁, hsize, hsweptFree⟩ := hP
    simp only [returns_bind, returns_pure] at hr
    obtain ⟨f, _, hf, rfl, rfl⟩ := hr
    -- the node that is swept next stands at the number of nodes that are done
    obtain ⟨node, i⟩ := x
    obtain ⟨hnode, rfl⟩ := item_of_done hpre
    obtain ⟨hf, hnodeFree⟩ := sweepNode_grows hk hg₁.carries hpos (hone.mono hg₁.grown)
      hg₁.holds hsweptFree (hg₀.nodes _ node hnode) (hfree _ node hnode) hf
    refine ⟨⟨hf.carries, hg₁.grown.trans hf.grown, fun f' hf' => ?_⟩, by simp [hsize],
      fun j f' hj hf' => ?_⟩
    · rcases Array.mem_push.mp hf' with hf' | rfl
      · exact (hg₁.holds f' hf').mono hf.grown
      · exact hf.holds
    · rw [Array.getElem?_push] at hj
      split at hj
      · next heq =>
        cases hj
        refine ⟨node.expr, expr_eq_ok.mpr ⟨node, ?_, rfl⟩, hnodeFree hf'⟩
        rw [heq, hsize]
        exact hnode
      · exact hsweptFree j f' hj hf'

/-- What a sweep ends with: the argument vector stands first, the terms are those of all
components, and the targets are the factors in use. -/
structure Swept (K : ArgumentKey → Prop) (P Q : Expr R → Prop) (rank components : Nat)
    (arguments : List (ModifiedTerminal R)) (terms : TermTable) (g : ScalarGraph R) : Prop where
  carries : g.Carries P
  argument : ∀ (p : Nat) (m : ModifiedTerminal R), arguments[p]? = some m →
    g.expr p = .ok m.expr
  collected : terms.Collected K Q rank components g
  targets_nodup : g.targets.toList.Nodup
  mem_targets : ∀ f, f ∈ g.targets ↔ terms.InUse f

omit [Scalar R] in
/-- Arguments are inserted before there are targets, and nothing is noted about them. -/
theorem insertArguments_extends {arguments : List (ModifiedTerminal R)} {u : PUnit}
    (h : Returns (forIn arguments PUnit.unit fun m _ => do
      let _ ← insert m.expr
      pure (ForInStep.yield PUnit.unit)) {} u g) : ({} : ScalarGraph R).Extends g ∧ g.Unread := by
  have key := foldlM_induct
    (P := fun _ _ g => g.WellFormed ∧ ({} : ScalarGraph R).Extends g ∧ g.Unread)
    (foldlM_of_forIn h) ⟨wellFormed_empty, .refl _, unread_empty⟩ ?_
  · exact key.2
  · intro done m _ _ g₁ g₂ _ hP hr
    simp only [returns_bind, returns_pure] at hr
    obtain ⟨i, _, hi, -, rfl⟩ := hr
    have hins := insert_returns hP.1 hi
    exact ⟨hins.wellFormed, hP.2.1.trans hins.grown, insert_unread hP.2.2 hi⟩

/-- The graph and the terms that a sweep ends with. -/
theorem sweep_swept (hk : Factors.Keeps K P Q) (hg₀ : g₀.WellFormed)
    {arguments : List (ModifiedTerminal R)} (ha : Arguments arguments)
    (hargument : ∀ m ∈ arguments, P m.expr) (hone : Q (Expr.real Scalar.one))
    {position? : NodeId → Option Nat} (hpos : ∀ i p, position? i = some p → K [p])
    (hfree : ∀ i n, g₀.nodes[i]? = some n → position? i = none →
      (∀ a ∈ operandsOf n.expr, Q a) → Q n.expr)
    {terms : TermTable} (h : Returns (g₀.sweep rank arguments position?) {} terms g') :
    Swept K P Q rank g₀.targets.size arguments terms g' := by
  simp only [sweep, returns_bind, returns_modify, returns_pure] at h
  obtain ⟨u, g₁, hargs, one, g₂, hinsert, swept, g₃, hswept, terms', g₄, hterms, h⟩ := h
  -- the steps of the sweep, one after the other
  obtain ⟨-, g₅, hg₅, rfl, rfl⟩ := h
  obtain ⟨hg₁, hsize₁, hexpr₁⟩ := insertArguments_returns ha (foldlM_of_forIn hargs)
  obtain ⟨hextends₁, hunread₁⟩ := insertArguments_extends hargs
  -- at first the nodes are the arguments
  have hcarries₁ : g₁.Carries P := by
    refine ⟨hg₁, fun i e he => ?_, hunread₁⟩
    have hi : i < arguments.length := hsize₁ ▸ lt_size_of_expr he
    have hm := hexpr₁ i arguments[i] (List.getElem?_eq_getElem hi)
    rw [← Except.ok.inj (hm.symm.trans he)]
    exact hargument _ (List.getElem_mem hi)
  have hone := Factors.insertFactor_grows hk hcarries₁ hone hinsert
  have hswept := sweepNodes_grows hk hg₀ hone.carries hpos hone.holds hfree hswept
  obtain ⟨rfl, hcollected⟩ := collectTargets_collected hk hswept.holds hterms
  -- the factors in use become targets, and no node changes
  have hnodes : g₅.nodes = g₃.nodes := hg₅ ▸ useFactors_nodes g₃ _
  have hexpr : ∀ i, g₅.expr i = g₃.expr i := expr_of_nodes hnodes
  have hnodeWith : ∀ {f}, g₃.NodeWith Q f → g₅.NodeWith Q f := by
    rintro f ⟨e, he, hq⟩
    exact ⟨e, (hexpr f).trans he, hq⟩
  have hwellFormed : g₅.WellFormed := by
    rw [← hg₅]
    refine useFactors_wellFormed hswept.carries.wellFormed fun f hf => ?_
    obtain ⟨key, uses, c, hkey, huse⟩ := mem_flatMap_iff_inUse.mp hf
    exact ((hcollected key uses hkey).factor (f, c) huse).lt_size
  -- until then there are no targets
  have hnone : g₃.targets = #[] := by
    rw [hswept.grown.targets, hone.grown.targets, hextends₁.targets]
  obtain ⟨hnodup, hmem⟩ := useFactors_targets
    (terms'.toList.flatMap fun x => x.2.map (·.1)) (g := g₃) (by simp [hnone])
  rw [hg₅] at hnodup hmem
  refine ⟨⟨hwellFormed, fun i e he => ?_, fun n hn => ?_⟩, fun p m hp => ?_,
    fun key uses hkey => ?_, hnodup, fun f => ?_⟩
  · exact hswept.carries.holds i e ((hexpr i).symm.trans he)
  · exact hswept.carries.unread n (hnodes ▸ hn)
  · rw [hexpr]
    exact hswept.grown.expr (hone.grown.expr (hexpr₁ p m hp))
  · have huses := hcollected key uses hkey
    exact { huses with factor := fun use huse => hnodeWith (huses.factor use huse) }
  · rw [hmem, hnone, mem_flatMap_iff_inUse]
    simp

/-- The graph of factors: the argument vector stands first, and terms are made of nodes and
arguments. -/
structure FactorsFormed (arguments : List (ModifiedTerminal R)) (terms : TermTable)
    (g : ScalarGraph R) : Prop where
  wellFormed : g.WellFormed
  argument : ∀ (p : Nat) (m : ModifiedTerminal R), arguments[p]? = some m →
    g.expr p = .ok m.expr
  within : terms.Within arguments.length g

omit [Scalar R] in
/-- The arguments are nodes. -/
theorem FactorsFormed.length_le {arguments : List (ModifiedTerminal R)} {terms : TermTable}
    (h : FactorsFormed arguments terms g) : arguments.length ≤ g.size := by
  by_contra hlt
  have hlt : g.size < arguments.length := by omega
  have hexpr := h.argument g.size _ (List.getElem?_eq_getElem hlt)
  exact Nat.lt_irrefl _ (lt_size_of_expr hexpr)

/-- A factorization is what a sweep of the graph with the positions of its leaves ends with. -/
theorem sweep_of_factorize {F : Factorization R} (hF : g.factorize rank = .ok F) :
    ∃ found leaves, g.leafTerminals = .ok found ∧
      sortArguments (found.filter (·.2.isArgument)) = leaves ∧
      F.arguments = distinct (leaves.map (·.2)) ∧ F.size = g.targets.size ∧
      Returns (g.sweep rank F.arguments fun i => (Std.HashMap.ofList (leaves.filterMap fun (i, m) =>
        (argumentPosition? F.arguments m).map (i, ·)))[i]?) {} F.terms F.graph := by
  unfold factorize at hF
  -- the factorization is what the sweep ends with
  obtain ⟨found, hfound, hF⟩ := bind_eq_ok.mp hF
  refine ⟨found, _, hfound, rfl, ?_⟩
  dsimp only at hF
  split at hF
  · next terms g' hr =>
    cases hF
    exact ⟨rfl, rfl, hr⟩
  · cases hF

/-- What stands in the argument vector is an argument that a leaf holds. -/
theorem isLeaf_of_mem_arguments (hg : g.WellFormed) {F : Factorization R}
    (hF : g.factorize rank = .ok F) {m : ModifiedTerminal R} (hm : m ∈ F.arguments) :
    m.isArgument ∧ ∃ i, g.IsLeaf i m := by
  obtain ⟨found, leaves, hfound, rfl, harguments, -, -⟩ := sweep_of_factorize hF
  exact isLeaf_of_mem_distinct hg hfound (harguments ▸ hm)

omit [Scalar R] in
/-- A position that a leaf has is one in the argument vector. -/
theorem position_lt {leaves : List (NodeId × ModifiedTerminal R)}
    {arguments : List (ModifiedTerminal R)} {i : NodeId} {p : Nat}
    (h : (Std.HashMap.ofList (leaves.filterMap fun (i, m) =>
      (argumentPosition? arguments m).map (i, ·)))[i]? = some p) : p < arguments.length := by
  obtain ⟨leaf, -, hi⟩ := List.mem_filterMap.mp (mem_of_getElem?_ofList h)
  obtain ⟨p', hp', heq⟩ := Option.map_eq_some_iff.mp hi
  cases heq
  obtain ⟨m, hm, -⟩ := argumentPosition?_spec hp'
  exact (List.getElem?_eq_some_iff.mp hm).1

omit [DecidableEq R] in
/-- Positions below the length of the argument vector are merged to such. -/
theorem keeps_below (n : Nat) :
    Factors.Keeps (R := R) (fun key => ∀ p ∈ key, p < n) (fun _ => True) fun _ => True where
  none := by simp
  product hk hl p hp := by
    rcases List.mem_append.mp (List.mem_mergeSort.mp hp) with hp | hp
    · exact hk p hp
    · exact hl p hp
  apply _ _ _ := trivial
  factor _ := trivial
  operands _ _ _ _ := trivial

/-- The arguments and the terms of a factorization, with what is kept by any arithmetic. -/
theorem factorize_swept (hg : g.WellFormed) {F : Factorization R} (hF : g.factorize rank = .ok F) :
    Arguments F.arguments ∧ Swept (fun key => ∀ p ∈ key, p < F.arguments.length) (fun _ => True)
      (fun _ => True) rank g.targets.size F.arguments F.terms F.graph := by
  obtain ⟨found, leaves, hfound, rfl, harguments, -, hr⟩ := sweep_of_factorize hF
  -- every leaf's terminal has its node noted, so the argument vector consists of leaves
  have hleaves : ∀ l ∈ sortArguments (found.filter (·.2.isArgument)), g.IsLeaf l.1 l.2 :=
    fun l hl => ((mem_argumentLeaves hg hfound).mp hl).1
  have ha : Arguments F.arguments := harguments ▸ arguments_of_leaves hg hleaves
  exact ⟨ha, sweep_swept (keeps_below F.arguments.length) hg ha (fun _ _ => trivial) trivial
    (fun i p hp q hq => List.mem_singleton.mp hq ▸ position_lt hp) (fun _ _ _ _ _ => trivial) hr⟩

/-- **Whatever arithmetic on factors keeps, and all nodes have, the graph of factors has.** -/
theorem factorize_holds (hk : Factors.Keeps (fun _ => True) Q Q) (hone : Q (Expr.real Scalar.one))
    (hg : g.WellFormed) (hi : g.Holds Q) {F : Factorization R} (hF : g.factorize rank = .ok F) :
    F.graph.WellFormed ∧ F.graph.Holds Q := by
  obtain ⟨found, leaves, hfound, rfl, harguments, -, hr⟩ := sweep_of_factorize hF
  -- arguments and factors come from expressions of the graph
  have hargument : ∀ m ∈ F.arguments, Q m.expr := by
    intro m hm
    obtain ⟨-, i, n, hn, -, hd⟩ := isLeaf_of_mem_arguments hg hF hm
    rw [hd.expr]
    exact hi i n.expr (expr_eq_ok.mpr ⟨n, hn, rfl⟩)
  have hswept := sweep_swept hk hg (factorize_swept hg hF).1 hargument hone (fun _ _ _ => trivial)
    (fun i n hn _ _ => hi i n.expr (expr_eq_ok.mpr ⟨n, hn, rfl⟩)) hr
  exact ⟨hswept.carries.wellFormed, hswept.carries.holds⟩

/-- **The factorization of a well-formed graph is well formed.** -/
theorem factorize_formed (hg : g.WellFormed) {F : Factorization R}
    (hF : g.factorize rank = .ok F) : FactorsFormed F.arguments F.terms F.graph := by
  obtain ⟨-, hswept⟩ := factorize_swept hg hF
  refine ⟨hswept.carries.wellFormed, hswept.argument, fun key uses hkey use huse => ?_⟩
  have huses := hswept.collected key uses hkey
  exact ⟨(huses.factor use huse).lt_size, huses.ofKey⟩

end ScalarGraph

end WeakForm
