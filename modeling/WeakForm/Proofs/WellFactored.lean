import WeakForm.Proofs.ArgumentOrder
import WeakForm.Proofs.FactorGraph
import WeakForm.Proofs.Reachability

/-!
# Factorizations are well formed

Positions in the argument vector name arguments in keys and are nodes of the graph of factors,
and whatever reads a factorization relies on how the two are laid out. The argument vector lists
the arguments among the leaves, each descriptor once and in strictly ascending order, and its
members are the first nodes. Keys are ascending lists of positions, one for each argument of the
form. No node after the argument vector depends on an argument. Under a key every component of
the targets has at most one factor, and the targets of the graph are the factors in use.

* `ArgumentFree`, `argumentFree_apply`, `Reaches.argumentFree` — expressions and nodes without
  arguments;
* `keeps_argumentFree` — factors stay free of arguments, and keys ascending;
* `WellFactored`, `factorize_wellFactored` — the layout of a factorization.
-/

namespace WeakForm

open ScalarGraph

variable {R : Type}

/-! ## Expressions without arguments -/

namespace ScalarGraph

/-- A terminal and its descriptor agree on the core. -/
theorem Describes.terminal {m : ModifiedTerminal R} {e : Expr R} (h : Describes m e) :
    e.isModifiedTerminal ∧ e.core = some m.terminal := by
  obtain ⟨-, _, hpeel, -⟩ := Expr.analyse_eq_some.mp h
  exact Expr.isModifiedTerminal_of_peel hpeel

/-- A descriptor is of an argument when the core is one. -/
theorem Describes.isArgument_eq {m : ModifiedTerminal R} {e : Expr R} (h : Describes m e) :
    m.isArgument = (e.core.bind Terminal.argument?).isSome := by
  rw [h.terminal.2]
  rfl

/-- Operators have no descriptor. -/
theorem Describes.operandsOf_eq_nil {m : ModifiedTerminal R} {e : Expr R} (h : Describes m e) :
    operandsOf e = [] :=
  operandsOf_terminal h.terminal.1

/-- No part of an expression, as a graph sees it, is an argument under modifiers. -/
def ArgumentFree (e : Expr R) : Prop :=
  ∀ (a : Expr R) (m : ModifiedTerminal R), Part a e → Describes m a → m.isArgument = false

variable {a b e : Expr R}

theorem ArgumentFree.part (h : ArgumentFree e) (ha : Part a e) : ArgumentFree a :=
  fun b m hb hd => h b m (hb.trans ha) hd

theorem ArgumentFree.operand (h : ArgumentFree e) (ha : a ∈ operandsOf e) : ArgumentFree a :=
  h.part (.operand ha .refl)

/-- What is no argument itself, and has no operand with arguments, has none. -/
theorem argumentFree_of_operands (he : ∀ m, Describes m e → m.isArgument = false)
    (hoperands : ∀ a ∈ operandsOf e, ArgumentFree a) : ArgumentFree e := by
  intro a m hpart hd
  cases hpart with
  | refl => exact he m hd
  | operand hb hab => exact hoperands _ hb a m hab hd

/-- A constant has no arguments. -/
theorem argumentFree_constant (h : e.isConstantValue) : ArgumentFree e := by
  refine argumentFree_of_operands (fun m hd => ?_) fun a ha => ?_
  · rw [hd.isArgument_eq]
    unfold Expr.isConstantValue at h
    split at h
    · rfl
    · rfl
    · cases h
  · obtain ⟨t, rfl⟩ := Expr.leaf_of_isConstantValue h
    cases ha

/-- A binary operator on operands without arguments has none. -/
theorem argumentFree_apply [Scalar R] {op : BinaryOp} {r : Expr R} (ha : ArgumentFree a)
    (hb : ArgumentFree b) (h : op.apply a b = .ok r) : ArgumentFree r := by
  rcases Expr.binary_outcome h with rfl | rfl | hconst | rfl
  · exact ha
  · exact hb
  · exact argumentFree_constant hconst
  · -- an operator is no argument
    refine argumentFree_of_operands (fun m hd => nomatch hd.operandsOf_eq_nil) fun x hx => ?_
    rcases List.mem_pair.mp hx with rfl | rfl
    · exact ha
    · exact hb

/-! ## What a factorization keeps -/

/-- A key of a factorization: positions in the argument vector, in ascending order. -/
structure KeyFormed (n : Nat) (key : ArgumentKey) : Prop where
  sorted : key.Pairwise (· ≤ ·)
  below : ∀ p ∈ key, p < n

/-- Keys are merged in order, and what is built from factors is free of arguments. Every node is
free of them, or is one of the given arguments. -/
theorem keeps_argumentFree [Scalar R] {arguments : List (ModifiedTerminal R)}
    (ha : ∀ m ∈ arguments, m.expr.isModifiedTerminal) :
    Factors.Keeps (KeyFormed arguments.length)
      (fun e => (∃ m ∈ arguments, m.expr = e) ∨ ArgumentFree e) ArgumentFree where
  none := ⟨.nil, by simp⟩
  -- the key of a product has the positions of both keys
  product hk hl := by
    refine ⟨List.pairwise_mergeSort' (· ≤ ·) _, fun p hp => ?_⟩
    rcases List.mem_append.mp (List.mem_mergeSort.mp hp) with hp | hp
    · exact hk.below p hp
    · exact hl.below p hp
  apply := argumentFree_apply
  factor := .inr
  operands e he a hmem := by
    rcases he with ⟨m, hm, rfl⟩ | he
    · -- an argument has no operands
      rw [operandsOf_terminal (ha m hm)] at hmem
      cases hmem
    · exact .inr (he.operand hmem)

variable [DecidableEq R] {g : ScalarGraph R}

/-- The arguments of a graph can be keyed. -/
theorem ArgumentVector.arguments {arguments : List (ModifiedTerminal R)}
    (h : g.ArgumentVector arguments) : Arguments arguments := by
  have hd : ∀ m ∈ arguments, Describes m m.expr := by
    intro m hm
    obtain ⟨-, i, n, -, -, hd⟩ := h.leaf m hm
    rwa [hd.expr]
  exact ⟨hd, fun m hm => (hd m hm).terminal.1, h.nodup⟩

/-- A node whose expression has a descriptor is a leaf. -/
theorem isLeaf_of_describes (hg : g.WellFormed) {i : NodeId} {n : Node R}
    (hn : g.nodes[i]? = some n) {m : ModifiedTerminal R} (hd : Describes m n.expr) :
    g.IsLeaf i m := by
  have hlength := (hg.nodes i n hn).operands.length_eq
  rw [hd.operandsOf_eq_nil] at hlength
  exact ⟨n, hn, List.isEmpty_iff.mpr (List.eq_nil_of_length_eq_zero hlength), hd⟩

/-- A node that has no position is no argument, so it is free of arguments if its operands
are. -/
theorem argumentFree_of_position (hg : g.WellFormed)
    {found leaves : List (NodeId × ModifiedTerminal R)} (hfound : g.leafTerminals = .ok found)
    (hleaves : sortArguments (found.filter (·.2.isArgument)) = leaves)
    {arguments : List (ModifiedTerminal R)} (harguments : arguments = distinct (leaves.map (·.2)))
    {i : NodeId} {n : Node R} (hn : g.nodes[i]? = some n)
    (hposition : (Std.HashMap.ofList (leaves.filterMap fun (i, m) =>
      (argumentPosition? arguments m).map (i, ·)))[i]? = none)
    (hoperands : ∀ a ∈ operandsOf n.expr, ArgumentFree a) : ArgumentFree n.expr := by
  refine argumentFree_of_operands (fun m hd => ?_) hoperands
  rw [Bool.eq_false_iff]
  intro hm
  have hmem : (i, m) ∈ leaves := by
    rw [← hleaves]
    exact (mem_argumentLeaves hg hfound).mpr ⟨isLeaf_of_describes hg hn hd, hm⟩
  -- Every argument leaf has a position, and this node has none.
  obtain ⟨p, hp⟩ := exists_position harguments hmem
  rw [hposition] at hp
  cases hp

/-- What a node without arguments depends on has none. -/
theorem Reaches.argumentFree (hg : g.WellFormed) {i j : NodeId} (h : g.Reaches i j)
    (hi : g.NodeWith ArgumentFree i) : g.NodeWith ArgumentFree j := by
  induction h with
  | refl => exact hi
  | @tail j k _ hk ih =>
    obtain ⟨e, he, hfree⟩ := ih
    obtain ⟨n, hn, rfl⟩ := expr_eq_ok.mp he
    rw [operandsAt_eq hn] at hk
    -- an operand of the node holds an operand of its expression
    obtain ⟨a, ha, -, hka⟩ := exists_left_of_mem (hg.nodes j n hn).operands.flip hk
    exact ⟨a, hka, hfree.operand ha⟩

end ScalarGraph

/-! ## The layout of a factorization -/

namespace Factorization

variable [DecidableEq R]

/-- The argument at a position of the argument vector. -/
def argumentAt? (F : Factorization R) (position : Nat) : Option Argument :=
  F.arguments[position]?.bind (·.argument?)

/-- The form of a factorization of `g` for a form with `rank` arguments. -/
structure WellFactored (F : Factorization R) (g : ScalarGraph R) (rank : Nat) : Prop where
  /-- The argument vector lists the arguments among the leaves of the graph, each descriptor
  once, in strictly ascending order. -/
  vector : g.ArgumentVector F.arguments
  /-- The node at a position is the leaf of the argument there. -/
  argument : ∀ (p : Nat) (m : ModifiedTerminal R), F.arguments[p]? = some m → F.graph.IsLeaf p m
  /-- A key has a position for each argument of the form, in ascending order. -/
  key : ∀ key ∈ F.terms, key.length = rank ∧ KeyFormed F.arguments.length key
  /-- The numbers of arguments do not decrease along a key. -/
  numbers : ∀ key ∈ F.terms, key.Pairwise fun p q => ∃ a b,
    F.argumentAt? p = some a ∧ F.argumentAt? q = some b ∧ a.number ≤ b.number
  /-- The factors of terms stand after the argument vector. -/
  factor : ∀ f, TermTable.InUse F.terms f → F.arguments.length ≤ f ∧ f < F.graph.size
  /-- What stands after the argument vector is no argument and depends on none. -/
  free : ∀ f < F.graph.size, F.arguments.length ≤ f →
    ∀ i m, F.graph.Reaches f i → F.graph.IsLeaf i m → m.isArgument = false
  /-- Under a key, a component has at most one factor. -/
  components : ∀ (key : ArgumentKey) (uses : List (NodeId × Nat)), F.terms[key]? = some uses →
    (uses.map (·.2)).Pairwise (· < ·) ∧ ∀ use ∈ uses, use.2 < F.size
  /-- The targets are the factors in use, each once. -/
  targets_nodup : F.graph.targets.toList.Nodup
  mem_targets : ∀ f, f ∈ F.graph.targets ↔ TermTable.InUse F.terms f

variable {F : Factorization R} {g : ScalarGraph R} {rank : Nat}

/-- Every position has an argument number. -/
theorem exists_argumentAt? (hF : g.ArgumentVector F.arguments) {p : Nat}
    (hp : p < F.arguments.length) : ∃ a, F.argumentAt? p = some a := by
  rw [argumentAt?, List.getElem?_eq_getElem hp, Option.bind_some]
  exact Option.isSome_iff_exists.mp (hF.leaf _ (List.getElem_mem hp)).1

/-- The numbers of arguments do not decrease along the argument vector. -/
theorem number_le_of_le (hF : g.ArgumentVector F.arguments) {p q : Nat} {a b : Argument}
    (hp : F.argumentAt? p = some a) (hq : F.argumentAt? q = some b) (hpq : p ≤ q) :
    a.number ≤ b.number := by
  obtain ⟨m, hm, ha⟩ := Option.bind_eq_some_iff.mp hp
  obtain ⟨m', hm', hb⟩ := Option.bind_eq_some_iff.mp hq
  rcases Nat.eq_or_lt_of_le hpq with rfl | hlt
  · rw [hp, Option.some.injEq] at hq
    rw [hq]
  · obtain ⟨hpl, rfl⟩ := List.getElem?_eq_some_iff.mp hm
    obtain ⟨hql, rfl⟩ := List.getElem?_eq_some_iff.mp hm'
    have hascending := List.pairwise_iff_getElem.mp hF.ascending p q hpl hql hlt
    exact Descriptor.number_le_of_compareArguments? ha hb hascending

/-- Positions in ascending order name arguments whose numbers do not decrease. -/
theorem numbers_of_key (hF : g.ArgumentVector F.arguments) {key : ArgumentKey}
    (hkey : KeyFormed F.arguments.length key) : key.Pairwise fun p q => ∃ a b,
      F.argumentAt? p = some a ∧ F.argumentAt? q = some b ∧ a.number ≤ b.number := by
  refine hkey.sorted.imp_of_mem fun {p q} hp hq hle => ?_
  obtain ⟨a, ha⟩ := exists_argumentAt? hF (hkey.below p hp)
  obtain ⟨b, hb⟩ := exists_argumentAt? hF (hkey.below q hq)
  exact ⟨a, b, ha, hb, number_le_of_le hF ha hb hle⟩

end Factorization

/-! ## The graph of factors -/

namespace ScalarGraph

variable [DecidableEq R] {K : ArgumentKey → Prop} {rank components : Nat}
  {arguments : List (ModifiedTerminal R)} {terms : TermTable} {g : ScalarGraph R}

/-- The nodes without arguments are those after the argument vector. -/
theorem Swept.argumentFree_iff
    (h : Swept K (fun e => (∃ m ∈ arguments, m.expr = e) ∨ ArgumentFree e) ArgumentFree rank
      components arguments terms g)
    (ha : Arguments arguments) (hargument : ∀ m ∈ arguments, m.isArgument) {f : NodeId}
    (hf : f < g.size) : g.NodeWith ArgumentFree f ↔ arguments.length ≤ f := by
  constructor
  · rintro ⟨e, he, hfree⟩
    by_contra hlt
    -- it would be an argument
    have hp := List.getElem?_eq_getElem (Nat.lt_of_not_le hlt)
    have hm := List.getElem_mem (Nat.lt_of_not_le hlt)
    rw [← Except.ok.inj ((h.argument f _ hp).symm.trans he)] at hfree
    have hnot := hfree _ _ .refl (ha.describes _ hm)
    rw [hargument _ hm] at hnot
    cases hnot
  -- past the arguments there are factors only
  · intro hle
    obtain ⟨e, he⟩ := exists_expr hf
    rcases h.carries.holds f e he with ⟨m, hm, rfl⟩ | hfree
    · -- an argument is the node of its position
      obtain ⟨p, hp⟩ := List.mem_iff_getElem?.mp hm
      have hlt := (List.getElem?_eq_some_iff.mp hp).1
      rw [h.carries.wellFormed.expr_inj (h.argument p m hp) he] at hlt
      omega
    · exact ⟨e, he, hfree⟩

end ScalarGraph

/-- **Factorizations are well formed.** -/
theorem factorize_wellFactored [Scalar R] [DecidableEq R] {es : List (Expr R)} {g : ScalarGraph R}
    (hg : ofTargets es = .ok g) (hagree : g.ArgumentsAgree) {rank : Nat} {F : Factorization R}
    (hF : g.factorize rank = .ok F) : F.WellFactored g rank := by
  have hg := ofTargets_wellFormed hg
  obtain ⟨found, leaves, hfound, hleaves, harguments, hsize, hr⟩ := sweep_of_factorize hF
  -- factors are free of arguments, and keys are in order
  have hvector : g.ArgumentVector F.arguments :=
    harguments ▸ argumentVector_of_leaves hg hagree hfound hleaves
  have ha := hvector.arguments
  -- the key of an argument is its position
  have hsingle {p : Nat} (hp : p < F.arguments.length) : KeyFormed F.arguments.length [p] :=
    ⟨List.pairwise_singleton _ _, fun q hq => List.mem_singleton.mp hq ▸ hp⟩
  -- the sweep keeps all of this
  have hswept := sweep_swept (keeps_argumentFree ha.terminal) hg ha
    (fun m hm => .inl ⟨m, hm, rfl⟩) (argumentFree_constant (Expr.isConstantValue_literal _))
    (fun i p hp => hsingle (position_lt hp))
    (fun i n hn => argumentFree_of_position hg hfound hleaves harguments hn) hr
  have hfree {f : NodeId} (hf : f < F.graph.size) :=
    hswept.argumentFree_iff ha (fun m hm => (hvector.leaf m hm).1) hf
  have hkeys : ∀ key ∈ F.terms, key.length = rank ∧ KeyFormed F.arguments.length key := by
    intro key hkey
    obtain ⟨uses, huses⟩ :=
      Option.isSome_iff_exists.mp (Std.TreeMap.isSome_getElem?_iff_mem.mpr hkey)
    have huses := hswept.collected key uses huses
    exact ⟨huses.length, huses.ofKey⟩
  refine
    { vector := hvector
      argument := fun p m hp => ?_
      key := hkeys
      numbers := fun key hkey => Factorization.numbers_of_key hvector (hkeys key hkey).2
      factor := ?_
      free := fun f hf hle i m hreaches hleaf => ?_
      components := fun key uses huses => ?_
      targets_nodup := hswept.targets_nodup
      mem_targets := hswept.mem_targets }
  -- the argument stands at the node of its position
  · obtain ⟨n, hn, hexpr⟩ := expr_eq_ok.mp (hswept.argument p m hp)
    have hd := ha.describes m (List.mem_of_getElem? hp)
    rw [← hexpr] at hd
    exact isLeaf_of_describes hswept.carries.wellFormed hn hd
  -- what is used as a factor has no arguments
  · rintro f ⟨key, uses, c, huses, huse⟩
    have hnode := (hswept.collected key uses huses).factor (f, c) huse
    exact ⟨(hfree hnode.lt_size).mp hnode, hnode.lt_size⟩
  · -- what is reached has no arguments, so it is none
    obtain ⟨e, he, hnone⟩ :=
      hreaches.argumentFree hswept.carries.wellFormed ((hfree hf).mpr hle)
    obtain ⟨n, hn, -, hd⟩ := hleaf
    rw [Except.ok.inj ((expr_eq_ok.mpr ⟨n, hn, rfl⟩).symm.trans he)] at hd
    exact hnone e m .refl hd
  -- components are used once each, in ascending order
  · have huses := hswept.collected key uses huses
    rw [hsize]
    exact ⟨huses.ascending, huses.below⟩

/-- The factorization of a test function times a volume and over it is well formed. -/
theorem factorize_wellFactored_scaledTest :
    ScaledTest.graph.factorize 1 = .ok ScaledTest.factorization ∧
      ScaledTest.factorization.WellFactored ScaledTest.graph 1 := by
  refine ⟨ScaledTest.factorize_graph,
    factorize_wellFactored ScaledTest.ofTargets_form ?_ ScaledTest.factorize_graph⟩
  -- the only leaf with an argument is the test function
  have hleaf : ∀ (i : NodeId) (m : ModifiedTerminal ℚ) (a : Argument), ScaledTest.graph.IsLeaf i m →
      m.argument? = some a → m = SingleTest.descriptor := by
    rintro i m a ⟨n, hn, -, hd⟩ ha
    rcases ScaledTest.descriptor_of_graph (expr_eq_ok.mpr ⟨n, hn, rfl⟩) hd with ⟨-, rfl⟩ | ⟨-, rfl⟩
    · cases ha
    · rfl
  -- two leaves with an argument have the same descriptor
  intro i j m m' a b hi hj ha hb _ _
  rw [hleaf i m a hi ha, ← hleaf j m' b hj hb, hb] at ha
  cases ha
  exact ⟨rfl, rfl⟩

end WeakForm
