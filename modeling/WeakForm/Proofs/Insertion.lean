import Mathlib.Data.List.Forall2
import WeakForm.Expr.Size
import WeakForm.Graph.Scalarization

/-!
# Graphs that are built by insertion

A graph is built by inserting expressions, and each insertion either finds a node or
adds nodes at the end. So a graph that was built from the empty one is *well formed*:
its nodes hold scalar expressions, operands stand before the nodes that use them and
hold the operands of their expressions, and the index answers with the node that holds
an expression.

* `Building.Returns` — a computation on a graph ends with a value and a graph;
* `Building.foldlM_induct` — what every step of a fold keeps holds at its end;
* `ScalarGraph.WellFormed`, `ScalarGraph.Extends` — the invariant and the order;
* `ScalarGraph.insert_returns` — inserting keeps the invariant, extends the graph and
  returns a node that holds the expression;
* `ScalarGraph.insert_terminal` — a new modified terminal becomes the last node.
-/

namespace WeakForm

variable {R : Type} [DecidableEq R] {α β : Type}

/-! ## Computations on a graph -/

namespace Building

/-- Started on `g`, the computation ends with the value `a` and the graph `g'`. -/
def Returns (m : Building R α) (g : ScalarGraph R) (a : α) (g' : ScalarGraph R) : Prop :=
  m.run.run g = (.ok a, g')

variable {g g' : ScalarGraph R} {a : α} {b : β}

@[simp] theorem returns_pure {a' : α} :
    Returns (pure a : Building R α) g a' g' ↔ a = a' ∧ g = g' := by
  simp only [Returns, ExceptT.run_pure, StateT.run_pure]
  constructor
  · intro h
    cases h
    exact ⟨rfl, rfl⟩
  · rintro ⟨rfl, rfl⟩
    rfl

/-- A sequence ends where its first computation fails, or as its second one does. -/
theorem run_bind_eq {m : Building R α} {f : α → Building R β} {r : Except (Error R) β} :
    (m >>= f).run.run g = (r, g') ↔ (∃ err, m.run.run g = (.error err, g') ∧ r = .error err) ∨
      ∃ a g₁, m.run.run g = (.ok a, g₁) ∧ (f a).run.run g₁ = (r, g') := by
  simp only [ExceptT.run_bind, StateT.run_bind]
  rcases hm : m.run.run g with ⟨x, g₁⟩
  cases x with
  -- the first step fails, and what follows is not run
  | error err =>
    constructor
    · intro h
      cases h
      exact .inl ⟨err, rfl, rfl⟩
    · rintro (⟨err', h, rfl⟩ | ⟨a, g₂, h, -⟩)
      · cases h
        rfl
      · cases h
  -- the first step succeeds, and what follows runs from its graph
  | ok a =>
    constructor
    · exact fun h => .inr ⟨a, g₁, rfl, h⟩
    · rintro (⟨err', h, -⟩ | ⟨a', g₂, h, h'⟩)
      · cases h
      · cases h
        exact h'

/-- A composed step returns what the second one returns from the graph of the first. -/
@[simp] theorem returns_bind {m : Building R α} {f : α → Building R β} :
    Returns (m >>= f) g b g' ↔ ∃ a g₁, Returns m g a g₁ ∧ Returns (f a) g₁ b g' := by
  refine run_bind_eq.trans (or_iff_right ?_)
  rintro ⟨err, -, heq⟩
  cases heq

@[simp] theorem returns_get {g₁ : ScalarGraph R} :
    Returns (get : Building R (ScalarGraph R)) g g₁ g' ↔ g = g₁ ∧ g = g' := by
  constructor
  · intro h
    cases h
    exact ⟨rfl, rfl⟩
  · rintro ⟨rfl, rfl⟩
    rfl

@[simp] theorem returns_modify {f : ScalarGraph R → ScalarGraph R} {u : PUnit} :
    Returns (modify f : Building R PUnit) g u g' ↔ f g = g' := by
  constructor
  · intro h
    cases h
    rfl
  · rintro rfl
    rfl

@[simp] theorem returns_modifyGet {f : ScalarGraph R → α × ScalarGraph R} :
    Returns (modifyGet f : Building R α) g a g' ↔ f g = (a, g') := by
  constructor
  · intro h
    cases h
    rfl
  · intro h
    show (Except.ok (f g).1, (f g).2) = (Except.ok a, g')
    rw [h]

/-- What throws returns nothing. -/
@[simp] theorem returns_throw {e : Error R} : Returns (throw e : Building R α) g a g' ↔ False := by
  constructor
  · intro h
    cases h
  · intro h
    exact h.elim

/-- A lifted check returns its result and leaves the graph. -/
@[simp] theorem returns_lift {x : Checked R α} :
    Returns (liftM x : Building R α) g a g' ↔ x = .ok a ∧ g = g' := by
  cases x with
  | error e =>
    constructor
    · intro h
      cases h
    · rintro ⟨h, -⟩
      cases h
  | ok a' =>
    constructor
    · intro h
      cases h
      exact ⟨rfl, rfl⟩
    · rintro ⟨h, rfl⟩
      cases h
      rfl

/-- A result of the caller is returned as it is, and leaves the graph. -/
@[simp] theorem returns_ofExcept {x : Result R α} :
    Returns (ofExcept x : Building R α) g a g' ↔ x = .ok a ∧ g = g' := by
  cases x with
  | error e =>
    constructor
    · intro h
      cases h
    · rintro ⟨h, -⟩
      cases h
  | ok a' =>
    constructor
    · intro h
      cases h
      exact ⟨rfl, rfl⟩
    · rintro ⟨h, rfl⟩
      cases h
      rfl

/-- What holds before a fold, and is carried over by each of its steps from the items
that are done to one more of them, holds for all items at the end. -/
theorem foldlM_induct {f : β → α → Building R β} {P : List α → β → ScalarGraph R → Prop}
    {items : List α} {b₀ : β} (h : Returns (items.foldlM f b₀) g b g') (h₀ : P [] b₀ g)
    (step : ∀ (done : List α) (x : α) (b₁ b₂ : β) (g₁ g₂ : ScalarGraph R),
      done ++ [x] <+: items → P done b₁ g₁ → Returns (f b₁ x) g₁ b₂ g₂ →
      P (done ++ [x]) b₂ g₂) :
    P items b g' := by
  -- generalized to a fold of which some items are done
  suffices H : ∀ (done rest : List α) (b₁ : β) (g₁ : ScalarGraph R), done ++ rest = items →
      P done b₁ g₁ → Returns (rest.foldlM f b₁) g₁ b g' → P items b g' from
    H [] items b₀ g rfl h₀ h
  intro done rest
  induction rest generalizing done with
  | nil =>
    intro b₁ g₁ hd hP hr
    rw [List.foldlM_nil, returns_pure] at hr
    obtain ⟨rfl, rfl⟩ := hr
    rw [List.append_nil] at hd
    exact hd ▸ hP
  | cons x rest ih =>
    intro b₁ g₁ hd hP hr
    rw [List.foldlM_cons, returns_bind] at hr
    obtain ⟨b₂, g₂, hx, hr⟩ := hr
    have hd' : done ++ [x] ++ rest = items := by rw [List.append_assoc]; exact hd
    -- one more item is done
    exact ih (done ++ [x]) b₂ g₂ hd' (step done x b₁ b₂ g₁ g₂ ⟨rest, hd'⟩ hP hx) hr

/-- What every step keeps, a computation for all items keeps. -/
theorem forM_keeps {f : α → Building R PUnit} {P : ScalarGraph R → Prop} {items : List α}
    (step : ∀ x ∈ items, ∀ (g₁ g₂ : ScalarGraph R) (u : PUnit),
      P g₁ → Returns (f x) g₁ u g₂ → P g₂)
    {u : PUnit} (h : Returns (items.forM f) g u g') (hg : P g) : P g' := by
  induction items generalizing g with
  | nil =>
    obtain ⟨-, rfl⟩ := returns_pure.mp h
    exact hg
  | cons x items ih =>
    obtain ⟨v, g₁, hx, h⟩ := returns_bind.mp h
    exact ih (fun y hy => step y (List.mem_cons_of_mem x hy)) h
      (step x List.mem_cons_self g g₁ v hg hx)

/-- A loop that keeps nothing from step to step is a fold that keeps nothing. -/
theorem foldlM_of_forIn {f : α → Building R β} {items : List α} {u : PUnit}
    (h : Returns (forIn items PUnit.unit fun x _ => do
      let _ ← f x
      pure (ForInStep.yield PUnit.unit)) g u g') :
    Returns (items.foldlM (fun _ x => do let _ ← f x; pure PUnit.unit) PUnit.unit) g u g' := by
  induction items generalizing g with
  | nil => exact h
  | cons x items ih =>
    simp only [List.forIn_cons, returns_bind, returns_pure] at h
    obtain ⟨_, g₁, ⟨b, g₂, hb, rfl, rfl⟩, h⟩ := h
    rw [List.foldlM_cons, returns_bind]
    exact ⟨PUnit.unit, g₂, returns_bind.mpr ⟨b, g₂, hb, returns_pure.mpr ⟨rfl, rfl⟩⟩, ih h⟩

end Building

namespace ScalarGraph

open Building

variable {g g' g'' : ScalarGraph R}

/-! ## The invariant -/

/-- The operands that an expression has in a graph. -/
def operandsOf : Expr R → List (Expr R)
  | .binary _ a b => [a, b]
  | .unary (.math _) a | .unary .abs a => [a]
  | _ => []

omit [DecidableEq R] in
/-- A modified terminal has no operands in the graph. -/
theorem operandsOf_terminal {e : Expr R} (h : e.isModifiedTerminal) : operandsOf e = [] := by
  cases e with
  | leaf t => rfl
  | unary op a => cases op <;> simp_all [operandsOf, Expr.isModifiedTerminal, UnaryOp.isModifier]
  | binary op a b => simp [Expr.isModifiedTerminal] at h
  | listTensor items => rfl

/-- Node `i` stands after its operands, which hold the operands of its expression. -/
structure NodeFormed (g : ScalarGraph R) (i : NodeId) (n : Node R) : Prop where
  scalar : n.expr.isScalar
  operands : List.Forall₂ (fun j a => j < i ∧ g.expr j = .ok a) n.operands (operandsOf n.expr)
  /-- A leaf is a modified terminal. -/
  terminal : n.operands = [] → n.expr.isModifiedTerminal
  /-- What is noted about the node is what the analysis of its expression gives. -/
  noted : ∀ m, n.terminal = some m → n.expr.analyse = .ok (some m)

/-- The invariant of graphs that are built by insertion. -/
structure WellFormed (g : ScalarGraph R) : Prop where
  nodes : ∀ (i : NodeId) (n : Node R), g.nodes[i]? = some n → g.NodeFormed i n
  index : ∀ e i, g.lookup e = some i ↔ g.expr i = .ok e
  targets : ∀ t ∈ g.targets, t < g.size

/-- `g'` has the nodes of `g` and more after them, and the same targets. -/
structure Extends (g g' : ScalarGraph R) : Prop where
  nodes : ∀ (i : NodeId) (n : Node R), g.nodes[i]? = some n → g'.nodes[i]? = some n
  targets : g'.targets = g.targets

theorem Extends.refl (g : ScalarGraph R) : g.Extends g :=
  ⟨fun _ _ h => h, rfl⟩

theorem Extends.trans (h : g.Extends g') (h' : g'.Extends g'') : g.Extends g'' :=
  ⟨fun i n hn => h'.nodes i n (h.nodes i n hn), h'.targets.trans h.targets⟩

/-- The expression of a number is that of the node there. -/
theorem expr_eq_ok {i : NodeId} {e : Expr R} :
    g.expr i = .ok e ↔ ∃ n, g.nodes[i]? = some n ∧ n.expr = e := by
  rw [expr, node]
  cases g.nodes[i]? with
  | none => simp [Except.map]
  | some n => simp [Except.map]

/-- A larger graph holds the same expressions under their numbers. -/
theorem Extends.expr (h : g.Extends g') {i : NodeId} {e : Expr R} (he : g.expr i = .ok e) :
    g'.expr i = .ok e := by
  obtain ⟨n, hn, rfl⟩ := expr_eq_ok.mp he
  exact expr_eq_ok.mpr ⟨n, h.nodes i n hn, rfl⟩

theorem lt_size_of_expr {i : NodeId} {e : Expr R} (h : g.expr i = .ok e) : i < g.size := by
  obtain ⟨n, hn, -⟩ := expr_eq_ok.mp h
  exact (Array.getElem?_eq_some_iff.mp hn).1

theorem exists_expr {i : NodeId} (h : i < g.size) : ∃ e, g.expr i = .ok e :=
  ⟨g.nodes[i].expr, expr_eq_ok.mpr ⟨g.nodes[i], Array.getElem?_eq_getElem h, rfl⟩⟩

theorem Extends.size_le (h : g.Extends g') : g.size ≤ g'.size := by
  by_contra hlt
  obtain ⟨e, he⟩ := exists_expr (Nat.lt_of_not_le hlt)
  exact Nat.lt_irrefl _ (lt_size_of_expr (h.expr he))

theorem NodeFormed.mono (h : g.Extends g') {i : NodeId} {n : Node R} (hn : g.NodeFormed i n) :
    g'.NodeFormed i n :=
  { hn with operands := hn.operands.imp fun _ _ hj => ⟨hj.1, h.expr hj.2⟩ }

/-- A well-formed graph holds scalars only. -/
theorem WellFormed.expr_scalar (hg : g.WellFormed) {i : NodeId} {e : Expr R}
    (h : g.expr i = .ok e) : e.isScalar := by
  obtain ⟨n, hn, rfl⟩ := expr_eq_ok.mp h
  exact (hg.nodes i n hn).scalar

/-- Each expression is held by one node. -/
theorem WellFormed.expr_inj (hg : g.WellFormed) {i j : NodeId} {e : Expr R}
    (hi : g.expr i = .ok e) (hj : g.expr j = .ok e) : i = j := by
  rw [← hg.index] at hi hj
  exact Option.some.inj (hi.symm.trans hj)

theorem lookup_empty (e : Expr R) : ({} : ScalarGraph R).lookup e = none := by
  simp [lookup]

/-- The index has no answer for an expression that no node holds. -/
theorem WellFormed.lookup_eq_none (hg : g.WellFormed) {e : Expr R}
    (h : e ∉ g.nodes.toList.map (·.expr)) : g.lookup e = none := by
  by_contra hne
  obtain ⟨i, hi⟩ := Option.ne_none_iff_exists'.mp hne
  obtain ⟨n, hn, rfl⟩ := expr_eq_ok.mp ((hg.index e i).mp hi)
  exact h (List.mem_map_of_mem (Array.mem_def.mp (Array.mem_of_getElem? hn)))

/-- The empty graph is well formed. -/
theorem wellFormed_empty : ({} : ScalarGraph R).WellFormed where
  nodes i n h := by simp at h
  index e i := by simp [lookup, expr, node, Except.map]
  targets t h := by simp at h

/-! ## Insertion -/

/-- The graph with one more node. -/
def push (g : ScalarGraph R) (e : Expr R) (operands : List NodeId) : ScalarGraph R :=
  { g with
    nodes := g.nodes.push { expr := e, operands }
    index := g.index.insert e g.size }

theorem append_returns {e : Expr R} {operands : List NodeId} {i : NodeId} :
    Returns (append e operands) g i g' ↔ i = g.size ∧ g' = g.push e operands := by
  rw [append, returns_modifyGet, Prod.mk.injEq]
  exact ⟨fun h => ⟨h.1.symm, h.2.symm⟩, fun h => ⟨h.1.symm, h.2.symm⟩⟩

/-- A push extends the graph. -/
theorem extends_push (g : ScalarGraph R) (e : Expr R) (operands : List NodeId) :
    g.Extends (g.push e operands) where
  nodes i n h := by
    have hi := (Array.getElem?_eq_some_iff.mp h).1
    rw [push, Array.getElem?_push_lt hi, ← h, Array.getElem?_eq_getElem hi]
  targets := rfl

theorem expr_push_self (g : ScalarGraph R) (e : Expr R) (operands : List NodeId) :
    (g.push e operands).expr g.size = .ok e :=
  expr_eq_ok.mpr ⟨_, Array.getElem?_push_size, rfl⟩

/-- The nodes of an extended graph are the old ones and the new one. -/
theorem nodes_push {e : Expr R} {operands : List NodeId} {i : NodeId} {n : Node R}
    (h : (g.push e operands).nodes[i]? = some n) :
    g.nodes[i]? = some n ∨ (i = g.size ∧ n = { expr := e, operands }) := by
  rw [push, Array.getElem?_push] at h
  split at h
  · next hi => exact .inr ⟨hi, (Option.some.inj h).symm⟩
  · exact .inl h

/-- After a push, an expression is an old one or the new one. -/
theorem expr_push {e e' : Expr R} {operands : List NodeId} {i : NodeId}
    (h : (g.push e operands).expr i = .ok e') : g.expr i = .ok e' ∨ (i = g.size ∧ e' = e) := by
  obtain ⟨n, hn, rfl⟩ := expr_eq_ok.mp h
  rcases nodes_push hn with hn | ⟨rfl, rfl⟩
  · exact .inl (expr_eq_ok.mpr ⟨n, hn, rfl⟩)
  · exact .inr ⟨rfl, rfl⟩

/-- The index still answers with the node that holds an expression. -/
theorem lookup_push (hg : ∀ e i, g.lookup e = some i ↔ g.expr i = .ok e) {e : Expr R}
    {operands : List NodeId} (hnew : g.lookup e = none) (e' : Expr R) (i : NodeId) :
    (g.push e operands).lookup e' = some i ↔ (g.push e operands).expr i = .ok e' := by
  rw [lookup, ScalarGraph.push, Std.HashMap.getElem?_insert]
  split
  · -- the new node holds the new expression, and no other node does
    next he =>
    obtain rfl := eq_of_beq he
    constructor
    · intro h
      rw [← Option.some.inj h]
      exact expr_push_self g e operands
    · intro h
      -- the expression was in no node before
      rcases expr_push h with h | ⟨rfl, -⟩
      · rw [← hg, hnew] at h
        cases h
      · rfl
  -- any other expression is looked up as before
  · next he =>
    have he : e ≠ e' := by simpa using he
    refine (hg e' i).trans ⟨(extends_push g e operands).expr, fun h => ?_⟩
    rcases expr_push h with h | ⟨-, rfl⟩
    · exact h
    · exact absurd rfl he

/-- A new expression over operands that are held before it keeps the graph well formed. -/
theorem WellFormed.push (hg : g.WellFormed) {e : Expr R} {operands : List NodeId}
    (hnew : g.lookup e = none) (hs : e.isScalar)
    (ho : List.Forall₂ (fun j a => g.expr j = .ok a) operands (operandsOf e))
    (ht : operands = [] → e.isModifiedTerminal) : (g.push e operands).WellFormed where
  nodes i n hn := by
    rcases nodes_push hn with hn | ⟨rfl, rfl⟩
    · exact (hg.nodes i n hn).mono (extends_push g e operands)
    · refine ⟨hs, ho.imp fun j a hj => ⟨lt_size_of_expr hj, ?_⟩, ht, nofun⟩
      exact (extends_push g e operands).expr hj
  index := lookup_push hg.index hnew
  targets t h := by
    have := hg.targets t h
    simp only [ScalarGraph.push, size, Array.size_push]
    exact Nat.lt_succ_of_lt this

/-- What an insertion ends with. The nodes it adds hold parts of the expression. -/
structure Inserted (g : ScalarGraph R) (e : Expr R) (i : NodeId) (g' : ScalarGraph R) : Prop where
  wellFormed : g'.WellFormed
  grown : g.Extends g'
  expr : g'.expr i = .ok e
  parts : ∀ (j : NodeId) (e' : Expr R), g'.expr j = .ok e' → g.expr j = .ok e' ∨ e'.size ≤ e.size

/-- Inserting a part of an expression does not insert the expression. -/
theorem Inserted.lookup_eq_none {e a : Expr R} {i : NodeId} (h : g.Inserted a i g')
    (hg : g.WellFormed) (hlt : a.size < e.size) (hnew : g.lookup e = none) :
    g'.lookup e = none := by
  cases hl : g'.lookup e with
  | none => rfl
  | some j =>
    rcases h.parts j e ((h.wellFormed.index e j).mp hl) with hj | hle
    · rw [← hg.index, hnew] at hj
      cases hj
    · omega

theorem WellFormed.inserted_of_lookup (hg : g.WellFormed) {e : Expr R} {i : NodeId}
    (h : g.lookup e = some i) : g.Inserted e i g :=
  ⟨hg, .refl g, (hg.index e i).mp h, fun _ _ => .inl⟩

/-- An expression that is new once its operands are inserted is put on top of them. -/
theorem inserted_push (hg' : g'.WellFormed) (h : g.Extends g') {e : Expr R}
    {operands : List NodeId} (hnew : g'.lookup e = none) (hs : e.isScalar)
    (ho : List.Forall₂ (fun j a => g'.expr j = .ok a) operands (operandsOf e))
    (ht : operands = [] → e.isModifiedTerminal)
    (hparts : ∀ (j : NodeId) (e' : Expr R),
      g'.expr j = .ok e' → g.expr j = .ok e' ∨ e'.size ≤ e.size) :
    g.Inserted e g'.size (g'.push e operands) where
  wellFormed := hg'.push hnew hs ho ht
  grown := h.trans (extends_push g' e operands)
  expr := expr_push_self g' e operands
  parts j e' hj := by
    rcases expr_push hj with hj | ⟨-, rfl⟩
    · exact hparts j e' hj
    · exact .inr (Nat.le_refl _)

/-- Inserting a terminal pushes one node for it. -/
theorem WellFormed.inserted_terminal (hg : g.WellFormed) {e : Expr R} (hop : operandsOf e = [])
    (hnew : g.lookup e = none) (hs : e.isScalar) (ht : e.isModifiedTerminal) :
    g.Inserted e g.size (g.push e []) :=
  inserted_push hg (.refl g) hnew hs (by rw [hop]; exact .nil) (fun _ => ht) fun _ _ => .inl

/-- How an insertion goes: the expression is found, or it is new and scalar, and put on
top of its operands, each inserted into the graph that the one before left. -/
inductive InsertRun (g : ScalarGraph R) : Expr R → NodeId → ScalarGraph R → Prop
  | found {e : Expr R} {i : NodeId} (h : g.lookup e = some i) : InsertRun g e i g
  | binary {op : BinaryOp} {a b : Expr R} {j k : NodeId} {g₁ g₂ : ScalarGraph R}
      (hnew : g.lookup (.binary op a b) = none) (hs : (Expr.binary op a b).isScalar)
      (ha : Returns (insert a) g j g₁) (hb : Returns (insert b) g₁ k g₂) :
      InsertRun g (.binary op a b) g₂.size (g₂.push (.binary op a b) [j, k])
  | unary {op : UnaryOp} {a : Expr R} {j : NodeId} {g₁ : ScalarGraph R}
      (hop : operandsOf (.unary op a) = [a]) (hnew : g.lookup (.unary op a) = none)
      (hs : (Expr.unary op a).isScalar) (ha : Returns (insert a) g j g₁) :
      InsertRun g (.unary op a) g₁.size (g₁.push (.unary op a) [j])
  | terminal {e : Expr R} (hop : operandsOf e = []) (hnew : g.lookup e = none)
      (hs : e.isScalar) (ht : e.isModifiedTerminal) : InsertRun g e g.size (g.push e [])

/-- A returning insertion is one of the runs. -/
theorem insert_run {e : Expr R} {i : NodeId} (h : Returns (insert e) g i g') :
    InsertRun g e i g' := by
  rw [insert.eq_def, returns_bind] at h
  obtain ⟨_, _, hget, h⟩ := h
  obtain ⟨rfl, rfl⟩ := returns_get.mp hget
  split at h
  · -- the expression is in the graph
    next j hj =>
    obtain ⟨rfl, rfl⟩ := returns_pure.mp h
    exact .found hj
  · next hnew =>
    by_cases hs : e.isScalar
    · -- one case for each kind of operator that is computed
      split at h
      -- a binary operator inserts both operands
      · next op a b =>
        simp only [hs, if_true, returns_bind, append_returns] at h
        obtain ⟨j, g₁, ha, k, g₂, hb, rfl, rfl⟩ := h
        exact .binary hnew hs ha hb
      -- a function inserts its operand
      · simp only [hs, if_true, returns_bind, append_returns] at h
        obtain ⟨j, g₁, ha, rfl, rfl⟩ := h
        exact .unary rfl hnew hs ha
      · simp only [hs, if_true, returns_bind, append_returns] at h
        obtain ⟨j, g₁, ha, rfl, rfl⟩ := h
        exact .unary rfl hnew hs ha
      · -- anything else is inserted as a terminal
        next hbin hmath habs =>
        have hop : operandsOf e = [] := by
          unfold operandsOf
          split
          · next op a b => exact (hbin op a b rfl).elim
          · next f a => exact (hmath f a rfl).elim
          · next a => exact (habs a rfl).elim
          · rfl
        by_cases ht : e.isModifiedTerminal
        · simp only [hs, ht, if_true, append_returns] at h
          obtain ⟨rfl, rfl⟩ := h
          exact .terminal hop hnew hs ht
        · simp [hs, ht] at h
    · -- only scalars are inserted
      exfalso
      split at h <;> simp [hs] at h

/-- Whatever goes like an insertion is one. -/
theorem InsertRun.returns {e : Expr R} {i : NodeId} (h : InsertRun g e i g') :
    Returns (insert e) g i g' := by
  rw [insert.eq_def, returns_bind]
  refine ⟨_, _, returns_get.mpr ⟨rfl, rfl⟩, ?_⟩
  cases h with
  | found hi =>
    -- the lookup answers at once
    rw [hi]
    exact returns_pure.mpr ⟨rfl, rfl⟩
  | binary hnew hs ha hb =>
    simp only [hnew, hs, if_true]
    -- the new node follows both operands
    exact returns_bind.mpr ⟨_, _, ha, returns_bind.mpr ⟨_, _, hb, append_returns.mpr ⟨rfl, rfl⟩⟩⟩
  | @unary op a _ _ hop hnew hs ha =>
    simp only [hnew, hs, if_true]
    -- only elementary functions and absolute values have their operand in the graph
    cases op with
    | math f => exact returns_bind.mpr ⟨_, _, ha, append_returns.mpr ⟨rfl, rfl⟩⟩
    | abs => exact returns_bind.mpr ⟨_, _, ha, append_returns.mpr ⟨rfl, rfl⟩⟩
    | _ => cases hop
  | terminal hop hnew hs ht =>
    simp only [hnew, hs, if_true]
    -- the operator is none of the three that have operands
    split
    · cases ht
    · cases ht
    · cases ht
    · rw [if_pos ht]
      exact append_returns.mpr ⟨rfl, rfl⟩

/-- Inserting keeps the graph well formed, extends it, and returns a node that holds
the expression. -/
theorem insert_returns (hg : g.WellFormed) {e : Expr R} {i : NodeId}
    (h : Returns (insert e) g i g') : g.Inserted e i g' := by
  induction e generalizing g g' i with
  | leaf t =>
    cases insert_run h with
    | found hi => exact hg.inserted_of_lookup hi
    | terminal hop hnew hs ht => exact hg.inserted_terminal hop hnew hs ht
  | unary op a ih =>
    cases insert_run h with
    | found hi => exact hg.inserted_of_lookup hi
    | unary hop hnew hs ha =>
      -- the operand is smaller, so its insertion does not add the expression itself
      have ha := ih hg ha
      have hlt : a.size < (Expr.unary op a).size := by simp
      refine inserted_push ha.wellFormed ha.grown (ha.lookup_eq_none hg hlt hnew) hs ?_ ?_ ?_
      · rw [hop]
        -- the node refers to its operand, which the larger graph still holds
        exact .cons ha.expr .nil
      · intro h
        cases h
      -- what was added for the operand is a part of the operand, so a smaller expression
      · intro k e' hk
        exact (ha.parts k e' hk).imp_right fun hle => by omega
    | terminal hop hnew hs ht => exact hg.inserted_terminal hop hnew hs ht
  | binary op a b iha ihb =>
    cases insert_run h with
    | found hi => exact hg.inserted_of_lookup hi
    | binary hnew hs ha hb =>
      -- both operands are smaller
      have ha := iha hg ha
      have hb := ihb ha.wellFormed hb
      have hlta : a.size < (Expr.binary op a b).size := by
        rw [Expr.size_binary]
        omega
      have hltb : b.size < (Expr.binary op a b).size := by
        rw [Expr.size_binary]
        omega
      have hnew₁ := ha.lookup_eq_none hg hlta hnew
      refine inserted_push hb.wellFormed (ha.grown.trans hb.grown)
        -- neither insertion added the expression itself
        (hb.lookup_eq_none ha.wellFormed hltb hnew₁) hs ?_ ?_ ?_
      · exact .cons (hb.grown.expr ha.expr) (.cons hb.expr .nil)
      · intro h
        cases h
      -- what was added is a part of either operand
      · intro k e' hk
        rcases hb.parts k e' hk with hk | hle
        · exact (ha.parts k e' hk).imp_right fun hle => by omega
        · exact .inr (by omega)
    | terminal hop => cases hop
  | listTensor items _ =>
    cases insert_run h with
    | found hi => exact hg.inserted_of_lookup hi
    | terminal hop hnew hs ht => exact hg.inserted_terminal hop hnew hs ht

/-- A new modified terminal becomes the last node. -/
theorem insert_terminal {e : Expr R} {i : NodeId} (h : Returns (insert e) g i g')
    (ht : e.isModifiedTerminal) (hnew : g.lookup e = none) : i = g.size ∧ g' = g.push e [] := by
  cases insert_run h with
  | found hi =>
    rw [hnew] at hi
    cases hi
  | binary => cases operandsOf_terminal ht
  | unary hop =>
    rw [operandsOf_terminal ht] at hop
    cases hop
  | terminal => exact ⟨rfl, rfl⟩

/-- A new scalar terminal under modifiers is inserted as the last node. -/
theorem insert_modified {e : Expr R} (hnew : g.lookup e = none) (hs : e.isScalar)
    (ht : e.isModifiedTerminal) : Returns (insert e) g g.size (g.push e []) :=
  (InsertRun.terminal (operandsOf_terminal ht) hnew hs ht).returns

/-- An expression that is there is found, and nothing changes. -/
theorem WellFormed.insert_known (hg : g.WellFormed) {e : Expr R} {i : NodeId}
    (h : g.expr i = .ok e) : Returns (insert e) g i g :=
  (InsertRun.found ((hg.index e i).mpr h)).returns

theorem insert_leaf {t : Terminal R} (hnew : g.lookup (.leaf t) = none)
    (hs : (Expr.leaf t).isScalar) :
    Returns (insert (.leaf t)) g g.size (g.push (.leaf t) []) :=
  insert_modified hnew hs rfl

/-! ## Graphs of targets -/

/-- Inserting a target keeps the graph well formed. -/
theorem insertTarget_returns (hg : g.WellFormed) {e : Expr R} {u : Unit}
    (h : Returns (insertTarget e) g u g') : g'.WellFormed := by
  simp only [insertTarget, returns_bind, returns_modify] at h
  obtain ⟨i, g₁, hi, rfl⟩ := h
  have hi := insert_returns hg hi
  refine ⟨fun j n hn => ?_, hi.wellFormed.index, fun t ht => ?_⟩
  · exact { hi.wellFormed.nodes j n hn with }
  · rcases Array.mem_push.mp ht with ht | rfl
    · exact hi.wellFormed.targets t ht
    · exact lt_size_of_expr hi.expr

/-- Inserting an array of targets is inserting its list. -/
theorem forM_insertTarget_toList {as : Array (Expr R)} :
    as.forM insertTarget = as.toList.forM insertTarget := by
  have hlist : as = as.toList.toArray := rfl
  rw [hlist, Array.forM_eq_forM, List.forM_toArray]

/-- The targets are inserted one after the other, as soon as everything is scalarized. -/
theorem returns_insertTargets {scalars : List (Result R (Array (Expr R)))} {u : Unit} :
    Returns (scalars.forM insertTargets) g u g' ↔ ∃ components : List (Array (Expr R)),
      scalars = components.map .ok ∧
        Returns ((components.flatMap Array.toList).forM insertTarget) g u g' := by
  induction scalars generalizing g with
  | nil =>
    constructor
    · exact fun h => ⟨[], rfl, h⟩
    · rintro ⟨components, hnil, h⟩
      rw [List.map_eq_nil_iff.mp hnil.symm] at h
      exact h
  | cons x scalars ih =>
    rw [List.forM_eq_forM, List.forM_cons, returns_bind]
    simp only [insertTargets, returns_bind, returns_ofExcept, forM_insertTarget_toList]
    -- the first expression has components, which are inserted before the others
    constructor
    · rintro ⟨v, g₁, ⟨as, _, ⟨rfl, rfl⟩, hfirst⟩, hrest⟩
      obtain ⟨components, heq, hrest⟩ := ih.mp hrest
      refine ⟨as :: components, by rw [heq, List.map_cons], ?_⟩
      rw [List.flatMap_cons, List.forM_eq_forM, List.forM_append]
      exact returns_bind.mpr ⟨v, g₁, hfirst, hrest⟩
    · rintro ⟨components, heq, h⟩
      cases components with
      | nil => cases heq
      -- and a list of components splits into the first and the others
      | cons as components =>
        obtain ⟨rfl, rfl⟩ := List.cons.inj heq
        rw [List.flatMap_cons, List.forM_eq_forM, List.forM_append] at h
        obtain ⟨v, g₁, hfirst, hrest⟩ := returns_bind.mp h
        exact ⟨v, g₁, ⟨as, g, ⟨rfl, rfl⟩, hfirst⟩, ih.mpr ⟨components, rfl, hrest⟩⟩

/-- The graph of several expressions is that of their components, in order. -/
theorem ofTargets_eq_ok [Scalar R] {es : List (Expr R)} :
    ofTargets es = .ok g ↔ ∃ components : List (Array (Expr R)),
      List.Forall₂ (fun e as => Expr.scalarize e = .ok as) es components ∧
        Returns ((components.flatMap Array.toList).forM insertTarget) {} () g := by
  -- the list of outcomes is a list of components when every expression has components
  have hmap : ∀ components : List (Array (Expr R)), es.map Expr.scalarize = components.map .ok ↔
      List.Forall₂ (fun e as => Expr.scalarize e = .ok as) es components := fun components => by
    rw [← List.forall₂_eq_eq_eq, List.forall₂_map_left_iff, List.forall₂_map_right_iff]
  -- the graph is the one that the insertion starting from nothing leaves
  have hrun : ofTargets es = .ok g ↔
      Returns ((Expr.scalarizeAll es).forM insertTargets) {} () g := by
    unfold ofTargets
    constructor
    · intro h
      split at h
      · next u g₁ hr =>
        rw [← Except.ok.inj h]
        exact hr
      · cases h
    · intro h
      rw [h]
  rw [hrun, Expr.scalarizeAll_eq, returns_insertTargets]
  simp only [hmap]

/-- The graph of a scalar that is its own component. -/
theorem ofTargets_scalar [Scalar R] {e : Expr R} {t : NodeId} (h : Expr.scalarize e = .ok #[e])
    (hinsert : Returns (insert e) {} t g) : ofTargets [e] = .ok (g.pushTarget t) := by
  have htarget : Returns (insertTarget e) {} () (g.pushTarget t) :=
    returns_bind.mpr ⟨t, g, hinsert, returns_modify.mpr rfl⟩
  exact ofTargets_eq_ok.mpr ⟨[#[e]], .cons h .nil,
    returns_bind.mpr ⟨(), _, htarget, returns_pure.mpr ⟨rfl, rfl⟩⟩⟩

/-- The graph of a terminal under modifiers has one node. -/
theorem ofTargets_modified [Scalar R] {e : Expr R} (h : Expr.scalarize e = .ok #[e])
    (hs : e.isScalar) (ht : e.isModifiedTerminal) :
    ofTargets [e] = .ok ((({} : ScalarGraph R).push e []).pushTarget 0) :=
  ofTargets_scalar h (insert_modified (lookup_empty e) hs ht)

/-- A graph of targets is well formed. -/
theorem ofTargets_wellFormed [Scalar R] {es : List (Expr R)} (h : ofTargets es = .ok g) :
    g.WellFormed := by
  obtain ⟨components, -, hr⟩ := ofTargets_eq_ok.mp h
  exact forM_keeps (fun e _ g₁ g₂ u hg₁ hr => insertTarget_returns hg₁ hr) hr wellFormed_empty

end ScalarGraph

end WeakForm
