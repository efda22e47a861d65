import Mathlib.Logic.Relation
import WeakForm.Proofs.Partition

/-!
# The partition of a graph is reachability

The two sweeps of the partition decide two relations on the graph, whatever its statuses were
before. The backward sweep marks the nodes that are reached from a target. The forward sweep
fails at the first of these nodes that is a leaf without a class, and otherwise notes as varying
the ones that reach a leaf which is read at every quadrature point.

* `ScalarGraph.Edited` — the graphs that insertion, targets and tables make;
* `ScalarGraph.Reaches`, `Needed`, `ReachesVarying`, `Unclassified` — reachability;
* `active_iff` — the marks of the backward sweep;
* `Statuses`, `statusOf_mixed` — the statuses that reachability tells, one node after the other;
* `partition_reachability` — what the partition of an edited graph ends with.
-/

namespace WeakForm

variable {R : Type} [DecidableEq R] {α β : Type}

/-! ## Computations that fail -/

namespace Building

/-- Started on `g`, the computation fails with the error `e` and leaves the graph `g'`. -/
def Fails (m : Building R α) (g : ScalarGraph R) (e : Error R) (g' : ScalarGraph R) : Prop :=
  m.run.run g = (.error e, g')

variable {g g' : ScalarGraph R} {e : Error R}

theorem fails_pure {a : α} : ¬Fails (pure a : Building R α) g e g' :=
  nofun

theorem fails_get : ¬Fails (get : Building R (ScalarGraph R)) g e g' :=
  nofun

/-- After an error nothing is run, so the graph stays. -/
theorem fails_throw_bind {e' : Error R} {f : α → Building R β}
    (h : Fails (throw e' >>= f) g e g') : g = g' := by
  cases h
  rfl

/-- A composition fails in its first step or, with what it returns, in the second. -/
theorem fails_bind {m : Building R α} {f : α → Building R β} :
    Fails (m >>= f) g e g' ↔ Fails m g e g' ∨ ∃ a g₁, Returns m g a g₁ ∧ Fails (f a) g₁ e g' := by
  refine run_bind_eq.trans (or_congr_left ⟨?_, fun h => ⟨e, h, rfl⟩⟩)
  rintro ⟨err, h, heq⟩
  cases heq
  exact h

end Building

namespace ScalarGraph

open Building

variable {g g' : ScalarGraph R}

theorem fails_append {e : Expr R} {operands : List NodeId} {err : Error R} :
    ¬Fails (append e operands) g err g' :=
  nofun

/-! ## Edited graphs -/

/-- An insertion fails before it adds anything, or with the insertion of an operand. -/
inductive InsertFailed (g : ScalarGraph R) (err : Error R) : Expr R → ScalarGraph R → Prop
  | rejected {e : Expr R} : InsertFailed g err e g
  | left {op : BinaryOp} {a b : Expr R} {g' : ScalarGraph R} (ha : Fails (insert a) g err g') :
      InsertFailed g err (.binary op a b) g'
  | right {op : BinaryOp} {a b : Expr R} {j : NodeId} {g₁ g' : ScalarGraph R}
      (ha : Returns (insert a) g j g₁) (hb : Fails (insert b) g₁ err g') :
      InsertFailed g err (.binary op a b) g'
  | unary {op : UnaryOp} {a : Expr R} {g' : ScalarGraph R} (ha : Fails (insert a) g err g') :
      InsertFailed g err (.unary op a) g'

/-- A failing insertion fails on an operand or rejects the expression. -/
theorem insert_failed {e : Expr R} {err : Error R} (h : Fails (insert e) g err g') :
    InsertFailed g err e g' := by
  rw [insert.eq_def] at h
  obtain h | ⟨_, _, hget, h⟩ := fails_bind.mp h
  · exact absurd h fails_get
  obtain ⟨rfl, rfl⟩ := returns_get.mp hget
  split at h
  · exact absurd h fails_pure
  · by_cases hs : e.isScalar
    · split at h
      -- an operator over two operands
      · next op a b =>
        simp only [hs, if_true] at h
        obtain h | ⟨j, g₁, ha, h⟩ := fails_bind.mp h
        · exact .left h
        obtain h | ⟨k, g₂, hb, h⟩ := fails_bind.mp h
        · exact .right ha h
        · exact absurd h fails_append
      -- a function, and the absolute value below, over one
      · simp only [hs, if_true] at h
        obtain h | ⟨j, g₁, ha, h⟩ := fails_bind.mp h
        · exact .unary h
        · exact absurd h fails_append
      · simp only [hs, if_true] at h
        obtain h | ⟨j, g₁, ha, h⟩ := fails_bind.mp h
        · exact .unary h
        · exact absurd h fails_append
      -- anything else has to be a terminal under modifiers
      · by_cases ht : e.isModifiedTerminal
        · simp only [hs, ht, if_true] at h
          exact absurd h fails_append
        · simp only [hs, if_true, if_neg ht] at h
          obtain rfl := fails_throw_bind h
          exact .rejected
    · -- only scalars are inserted
      split at h
      all_goals
        simp only [if_neg hs] at h
        obtain rfl := fails_throw_bind h
        exact .rejected

/-- An insertion that fails leaves a well-formed graph. -/
theorem insert_fails (hg : g.WellFormed) {e : Expr R} {err : Error R}
    (h : Fails (insert e) g err g') : g'.WellFormed := by
  induction e generalizing g g' with
  | leaf t =>
    cases insert_failed h with
    | rejected => exact hg
  | unary op a ih =>
    cases insert_failed h with
    | rejected => exact hg
    | unary ha => exact ih hg ha
  | binary op a b iha ihb =>
    cases insert_failed h with
    | rejected => exact hg
    | left ha => exact iha hg ha
    | right ha hb => exact ihb (insert_returns hg ha).wellFormed hb
  | listTensor items _ =>
    cases insert_failed h with
    | rejected => exact hg

/-- Insertion keeps a graph well formed, whether or not it fails. -/
theorem insert_wellFormed (hg : g.WellFormed) (e : Expr R) :
    ((insert e).run.run g).2.WellFormed := by
  rcases hr : (insert e).run.run g with ⟨r, g'⟩
  cases r with
  | ok i => exact (insert_returns hg hr).wellFormed
  | error err => exact insert_fails hg hr

/-- The graphs that are made by inserting expressions, be it in part, and by adding nodes as
targets and noting tables and statuses. -/
inductive Edited : ScalarGraph R → Prop
  | empty : Edited {}
  | insert {g : ScalarGraph R} (hg : Edited g) (e : Expr R) : Edited ((insert e).run.run g).2
  | pushTarget {g : ScalarGraph R} (hg : Edited g) {i : NodeId} (hi : i < g.size) :
      Edited (g.pushTarget i)
  | setTable {g g' : ScalarGraph R} (hg : Edited g) {i : NodeId} {t : TableReference}
      (h : g.setTable i t = .ok g') : Edited g'
  | setStatus {g g' : ScalarGraph R} (hg : Edited g) {i : NodeId} {s : NodeStatus}
      (h : g.setStatus i s = .ok g') : Edited g'

/-- What is noted about a node without changing its descriptor keeps the graph well formed. -/
theorem annotate_wellFormed (hg : g.WellFormed) {i : NodeId} {f : Node R → Node R}
    (hf : ∀ n, (f n).expr = n.expr ∧ (f n).operands = n.operands ∧ (f n).terminal = n.terminal)
    (h : g.annotate i f = .ok g') : g'.WellFormed := by
  have hsame : g.Reannotates g' := reannotates_annotate (fun n => ⟨(hf n).1, (hf n).2.1⟩) h
  refine hsame.wellFormed hg fun j n' hn' m hm => ?_
  obtain ⟨n, hn, rfl | rfl⟩ := annotate_node h hn'
  · exact (hg.nodes j _ hn).noted m hm
  · rw [(hf n).1]
    exact (hg.nodes j n hn).noted m ((hf n).2.2 ▸ hm)

/-- A target is a node, so the graph stays well formed. -/
theorem pushTarget_wellFormed (hg : g.WellFormed) {i : NodeId} (hi : i < g.size) :
    (g.pushTarget i).WellFormed where
  nodes j n hn := { hg.nodes j n hn with }
  index := hg.index
  targets t ht := by
    rcases Array.mem_push.mp ht with ht | rfl
    · exact hg.targets t ht
    · exact hi

/-- Edits keep a graph well formed. -/
theorem Edited.wellFormed (hg : g.Edited) : g.WellFormed := by
  induction hg with
  | empty => exact wellFormed_empty
  | insert _ e ih => exact insert_wellFormed ih e
  | pushTarget _ hi ih => exact pushTarget_wellFormed ih hi
  | setTable _ h ih =>
    refine annotate_wellFormed ih ?_ h
    exact fun n => ⟨rfl, rfl, rfl⟩
  | setStatus _ h ih =>
    refine annotate_wellFormed ih ?_ h
    exact fun n => ⟨rfl, rfl, rfl⟩

/-- What an insertion ends with is an edited graph again. -/
theorem Edited.inserted (hg : g.Edited) {e : Expr R} {i : NodeId}
    (h : Returns (ScalarGraph.insert e) g i g') : g'.Edited := by
  have hedited := Edited.insert hg e
  rwa [h] at hedited

end ScalarGraph

/-! ## Reachability -/

/-- The expression of a node is over a coordinate of the reference cell or of a reference facet,
or over the weight of a quadrature point. -/
def Node.IsPointwise (n : Node R) : Prop :=
  ∃ q : Geometry, n.expr.core = some (.geometry q) ∧
    (q.kind = .cellCoordinate ∨ q.kind = .facetCoordinate ∨ q.kind = .quadratureWeight)

/-- What a leaf is read from changes between quadrature points. -/
def Node.Varies (n : Node R) : Prop :=
  match n.table with
  | some t => t.type = .varying ∨ t.type = .quadrature ∨ t.type = .uniform
  | none => n.IsPointwise

namespace ScalarGraph

open Building

variable {g g' : ScalarGraph R}

/-- The first node is the second, or depends on it. -/
def Reaches (g : ScalarGraph R) : NodeId → NodeId → Prop :=
  Relation.ReflTransGen fun i j => j ∈ g.operandsAt i

/-- What a node depends on stands before it. -/
theorem Reaches.le (hg : g.WellFormed) {i j : NodeId} (h : g.Reaches i j) : j ≤ i := by
  induction h with
  | refl => exact Nat.le_refl _
  | tail _ hstep ih => exact Nat.le_trans (Nat.le_of_lt (lt_of_mem_operandsAt hg hstep).1) ih

/-- A target is the node, or depends on it. -/
def Needed (g : ScalarGraph R) (i : NodeId) : Prop :=
  ∃ t ∈ g.targets, g.Reaches t i

/-- The node is a leaf that varies, or depends on one. -/
def ReachesVarying (g : ScalarGraph R) (i : NodeId) : Prop :=
  ∃ (j : NodeId) (n : Node R), g.Reaches i j ∧ g.nodes[j]? = some n ∧ n.isLeaf ∧ n.Varies

/-- A leaf that a target needs cannot be classified: it has no table, and what it is over is
neither given at the quadrature points nor constant on a cell. -/
structure Unclassified (g : ScalarGraph R) (i : NodeId) (n : Node R) : Prop where
  needed : g.Needed i
  node : g.nodes[i]? = some n
  leaf : n.isLeaf
  noTable : n.table = none
  notPointwise : ¬n.IsPointwise
  notCellwise : ¬n.expr.isCellwiseConstant

/-- The statuses that reachability tells. -/
structure Statuses (g : ScalarGraph R) (status : NodeId → NodeStatus) : Prop where
  inactive : ∀ i < g.size, status i = .inactive ↔ ¬g.Needed i
  varying : ∀ i < g.size, status i = .varying ↔ g.Needed i ∧ g.ReachesVarying i
  piecewise : ∀ i < g.size, status i = .piecewise ↔ g.Needed i ∧ ¬g.ReachesVarying i

open Classical in
/-- Every graph has statuses. -/
theorem exists_statuses (g : ScalarGraph R) : ∃ status, g.Statuses status := by
  refine ⟨fun i => if g.Needed i then if g.ReachesVarying i then .varying else .piecewise
    else .inactive, fun i _ => ?_, fun i _ => ?_, fun i _ => ?_⟩
  all_goals
    by_cases hneeded : g.Needed i
    · by_cases hvarying : g.ReachesVarying i
      · simp [hneeded, hvarying]
      · simp [hneeded, hvarying]
    · simp [hneeded]

/-! ### The backward sweep -/

/-- Marking an operand of a marked node marks what is needed, if what was marked is. -/
theorem needed_markOperands (hg : g.WellFormed) {marked : Array Bool} {k : NodeId}
    (hsize : marked.size = g.size)
    (h : ∀ i < g.size, marked.getD i false → g.Needed i) :
    ∀ i < g.size, (g.markOperands marked k).getD i false → g.Needed i := by
  intro i hi hmarked
  rcases (getD_markOperands (by omega)).mp hmarked with hmarked | ⟨hk, hmem⟩
  · exact h i hi hmarked
  · obtain ⟨t, ht, hreaches⟩ := h k (lt_of_mem_operandsAt hg hmem).2 hk
    exact ⟨t, ht, hreaches.tail hmem⟩

theorem active_eq (g : ScalarGraph R) : g.active = g.ids.reverse.foldl g.markOperands
    (markAll (Array.replicate g.size false) g.targets.toList) := by
  rw [active, ← Array.foldl_toList]
  rfl

/-- What is marked is needed. -/
theorem needed_of_active (hg : g.WellFormed) {i : NodeId} (hi : i < g.size)
    (h : g.active.getD i false) : g.Needed i := by
  -- marking operands keeps to nodes that are needed
  have hrun : ∀ (ids : List NodeId) (marked : Array Bool), marked.size = g.size →
      (∀ i < g.size, marked.getD i false → g.Needed i) →
      ∀ i < g.size, (ids.foldl g.markOperands marked).getD i false → g.Needed i := by
    intro ids
    induction ids with
    | nil => exact fun marked _ h => h
    | cons k ids ih =>
      intro marked hsize h
      exact ih _ ((size_markOperands marked k).trans hsize) (needed_markOperands hg hsize h)
  rw [active_eq] at h
  refine hrun _ _ ((size_markAll _ _).trans Array.size_replicate) (fun j hj hmarked => ?_) i hi h
  -- at first the targets are marked
  rw [getD_markAll (by simpa using hj)] at hmarked
  rcases hmarked with hmarked | hmem
  · simp [hj] at hmarked
  · exact ⟨j, Array.mem_toList_iff.mp hmem, .refl⟩

/-- Marks stay. -/
theorem getD_foldl_markOperands {ids : List NodeId} {marked : Array Bool} {i : NodeId}
    (hi : i < marked.size) (h : marked.getD i false) :
    (ids.foldl g.markOperands marked).getD i false := by
  induction ids generalizing marked with
  | nil => exact h
  | cons k ids ih =>
    refine ih (by rwa [size_markOperands]) ?_
    rw [getD_markOperands hi]
    exact .inl h

/-- **The backward sweep marks what is needed.** -/
theorem active_iff (hg : g.WellFormed) {i : NodeId} (hi : i < g.size) :
    g.active.getD i false ↔ g.Needed i := by
  refine ⟨needed_of_active hg hi, ?_⟩
  rintro ⟨t, ht, hreaches⟩
  -- along the way from the target
  induction hreaches with
  | refl =>
    rw [active_eq]
    have hsize : t < (Array.replicate g.size false).size := by rwa [Array.size_replicate]
    refine getD_foldl_markOperands (by rwa [size_markAll]) ?_
    rw [getD_markAll hsize]
    exact .inr (Array.mem_toList_iff.mpr ht)
  | tail _ hj ih => exact active_operand hg (ih (lt_of_mem_operandsAt hg hj).2) hj

/-! ### The forward sweep -/

/-- The graph with the given statuses. -/
def withStatuses (g : ScalarGraph R) (status : NodeId → NodeStatus) : ScalarGraph R :=
  { g with nodes := g.nodes.mapIdx fun i n => { n with status := status i } }

/-- New statuses before node `k`, and old ones from there on. -/
def mixed (new old : NodeId → NodeStatus) (k : Nat) (i : NodeId) : NodeStatus :=
  if i < k then new i else old i

section Statuses

variable {status old : NodeId → NodeStatus} {k : NodeId} {n : Node R}

theorem node_withStatuses (i : NodeId) : (g.withStatuses status).nodes[i]? =
    g.nodes[i]?.map fun n => { n with status := status i } :=
  Array.getElem?_mapIdx

theorem size_withStatuses : (g.withStatuses status).size = g.size :=
  Array.size_mapIdx

/-- Statuses do not change operands. -/
theorem operandsAt_withStatuses (i : NodeId) :
    (g.withStatuses status).operandsAt i = g.operandsAt i := by
  rw [operandsAt, node_withStatuses, Option.map_map]
  rfl

/-- The marks do not depend on statuses. -/
theorem active_withStatuses : (g.withStatuses status).active = g.active := by
  have hmark : (g.withStatuses status).markOperands = g.markOperands := by
    funext marked k
    rw [markOperands_eq, markOperands_eq, operandsAt_withStatuses]
  rw [active_eq, active_eq, hmark, ids, ids, size_withStatuses]
  rfl

/-- Only the statuses of nodes matter. -/
theorem withStatuses_congr {status' : NodeId → NodeStatus}
    (h : ∀ i < g.size, status i = status' i) :
    g.withStatuses status = g.withStatuses status' := by
  have hnodes : (g.withStatuses status).nodes = (g.withStatuses status').nodes := by
    refine Array.ext_getElem? fun i => ?_
    rw [node_withStatuses, node_withStatuses]
    rcases Nat.lt_or_ge i g.nodes.size with hi | hi
    · rw [h i hi]
    · rw [Array.getElem?_eq_none hi]
      rfl
  exact congrArg (fun nodes => { g with nodes }) hnodes

/-- Setting one status changes the status of that node only. -/
theorem setStatus_withStatuses (hk : k < g.size) {status' : NodeId → NodeStatus} {s : NodeStatus}
    (hself : status' k = s) (hother : ∀ i ≠ k, status' i = status i) :
    (g.withStatuses status).setStatus k s = .ok (g.withStatuses status') := by
  -- the node is modified in its place
  have hnodes : (g.withStatuses status).nodes.modify k (fun n => { n with status := s }) =
      (g.withStatuses status').nodes := by
    refine Array.ext_getElem? fun i => ?_
    rw [Array.getElem?_modify, node_withStatuses, node_withStatuses]
    split
    · next hi =>
      subst hi
      rw [hself, Option.map_map]
      rfl
    · next hi => rw [hother i (Ne.symm hi)]
  rw [setStatus, annotate, if_pos (by rwa [size_withStatuses]), hnodes]
  rfl

omit [DecidableEq R] in
/-- A leaf that varies is classified as varying. -/
theorem leafStatus_of_varies (h : n.Varies) : n.leafStatus = .ok .varying := by
  unfold Node.Varies at h
  unfold Node.leafStatus
  cases htable : n.table with
  | some t =>
    rw [htable] at h
    rcases h with h | h | h
    all_goals simp [h, TableType.isVarying]
  | none =>
    rw [htable] at h
    obtain ⟨q, hcore, hkind⟩ := h
    have hq : q.isPointDependent := by
      rcases hkind with hkind | hkind | hkind
      all_goals simp [Geometry.isPointDependent, hkind]
    simp [hcore, hq]

omit [DecidableEq R] in
/-- A leaf that does not vary is piecewise constant, if it can be classified. -/
theorem leafStatus_of_not_varies (h : ¬n.Varies) : n.leafStatus =
    if n.table = none ∧ ¬n.expr.isCellwiseConstant then .error (.unclassified n.expr)
    else .ok .piecewise := by
  unfold Node.Varies at h
  unfold Node.leafStatus
  cases htable : n.table with
  | some t =>
    rw [htable] at h
    -- the type of a table alone tells
    have htype : t.type.isVarying = false := by
      cases htype : t.type with
      | zeros | ones | fixed | piecewise => rfl
      | uniform | quadrature | varying => simp [htype] at h
    simp [htype]
  | none =>
    rw [htable] at h
    -- without a table, the core does, and otherwise whether it is constant
    have hcore : ∀ q, n.expr.core = some (.geometry q) → q.isPointDependent = false := by
      intro q hcore
      cases hkind : q.kind with
      | cellCoordinate | facetCoordinate | quadratureWeight =>
        exact absurd ⟨q, hcore, by simp [hkind]⟩ h
      | spatialCoordinate | jacobian | facetNormal | cellVolume =>
        simp [Geometry.isPointDependent, hkind]
    dsimp only
    split
    · next q hq =>
      rw [hcore q hq, if_neg Bool.false_ne_true]
      by_cases hconstant : n.expr.isCellwiseConstant
      · simp [hconstant]
      · simp [hconstant]
    · by_cases hconstant : n.expr.isCellwiseConstant
      · simp [hconstant]
      · simp [hconstant]

/-- A leaf reaches nothing but itself. -/
theorem reachesVarying_leaf (hn : g.nodes[k]? = some n) (hleaf : n.isLeaf) :
    g.ReachesVarying k ↔ n.Varies := by
  constructor
  · rintro ⟨j, m, hreaches, hm, -, hvaries⟩
    rcases hreaches.cases_head with rfl | ⟨i, hi, -⟩
    · obtain rfl : n = m := Option.some.inj (hn.symm.trans hm)
      exact hvaries
    · rw [operandsAt_eq hn, List.isEmpty_iff.mp hleaf] at hi
      cases hi
  · exact fun h => ⟨k, n, .refl, hn, hleaf, h⟩

/-- An operator reaches what its operands reach. -/
theorem reachesVarying_operator (hn : g.nodes[k]? = some n) (hleaf : n.isLeaf = false) :
    g.ReachesVarying k ↔ ∃ j ∈ n.operands, g.ReachesVarying j := by
  rw [← operandsAt_eq hn]
  constructor
  · rintro ⟨j, m, hreaches, hm, hmleaf, hvaries⟩
    -- The path to the leaf is not empty, since the node it starts from is no leaf.
    rcases hreaches.cases_head with rfl | ⟨i, hi, hrest⟩
    · obtain rfl : n = m := Option.some.inj (hn.symm.trans hm)
      rw [hleaf] at hmleaf
      cases hmleaf
    · exact ⟨i, hi, j, m, hrest, hm, hmleaf, hvaries⟩
  · rintro ⟨i, hi, j, m, hreaches, hm, hmleaf, hvaries⟩
    exact ⟨j, m, .head hi hreaches, hm, hmleaf, hvaries⟩

/-- The operands of a needed node are needed. -/
theorem needed_operand (hn : g.nodes[k]? = some n) (h : g.Needed k) {j : NodeId}
    (hj : j ∈ n.operands) : g.Needed j := by
  obtain ⟨t, ht, hreaches⟩ := h
  exact ⟨t, ht, hreaches.tail (by rwa [operandsAt_eq hn])⟩

/-- A needed leaf that can be classified has the status that reachability tells. -/
theorem leafStatus_eq (hstatus : g.Statuses status) (hn : g.nodes[k]? = some n)
    (hclass : ¬g.Unclassified k n) (hneeded : g.Needed k) (hleaf : n.isLeaf) :
    n.leafStatus = .ok (status k) := by
  have hk : k < g.size := (Array.getElem?_eq_some_iff.mp hn).1
  by_cases hvaries : n.Varies
  · rw [leafStatus_of_varies hvaries,
      (hstatus.varying k hk).mpr ⟨hneeded, (reachesVarying_leaf hn hleaf).mpr hvaries⟩]
  · rw [leafStatus_of_not_varies hvaries, if_neg,
      (hstatus.piecewise k hk).mpr ⟨hneeded, (reachesVarying_leaf hn hleaf).not.mpr hvaries⟩]
    -- a leaf without a table that is not cellwise constant would have no class
    rintro ⟨htable, hconstant⟩
    refine hclass ⟨hneeded, hn, hleaf, htable, fun hpointwise => hvaries ?_, hconstant⟩
    rwa [Node.Varies, htable]

/-- The operands of a needed node come before it, so their new statuses are known. -/
theorem operand_varying_iff (hg : g.WellFormed) (hstatus : g.Statuses status)
    (hn : g.nodes[k]? = some n) (hneeded : g.Needed k) {j : NodeId} (hj : j ∈ n.operands) :
    (g.withStatuses (mixed status old k)).nodes[j]?.map (·.status) = some .varying ↔
      g.ReachesVarying j := by
  have hk : k < g.size := (Array.getElem?_eq_some_iff.mp hn).1
  obtain ⟨hjk, -⟩ := lt_of_mem_operandsAt hg (by rwa [operandsAt_eq hn])
  have hlt : j < g.size := hjk.trans hk
  have hneeded := needed_operand hn hneeded hj
  rw [node_withStatuses, Array.getElem?_eq_getElem hlt, Option.map_some, Option.map_some,
    mixed, if_pos hjk, Option.some.injEq, hstatus.varying j hlt, and_iff_right hneeded]

/-- Where the nodes before it have the statuses that reachability tells, a node that can be
classified gets its own. -/
theorem statusOf_mixed (hg : g.WellFormed) (hstatus : g.Statuses status)
    (hn : g.nodes[k]? = some n) (hclass : ¬g.Unclassified k n) (s : NodeStatus) :
    (g.withStatuses (mixed status old k)).statusOf (g.active.getD k false) { n with status := s } =
      .ok (status k) := by
  have hk : k < g.size := (Array.getElem?_eq_some_iff.mp hn).1
  -- a node that is not needed is inactive
  cases hactive : g.active.getD k false with
  | false =>
    have hneeded : ¬g.Needed k := by
      rw [← active_iff hg hk, hactive]
      exact Bool.false_ne_true
    rw [(hstatus.inactive k hk).mpr hneeded]
    rfl
  | true =>
    have hneeded : g.Needed k := (active_iff hg hk).mp hactive
    have hsame : ({ n with status := s } : Node R).isLeaf = n.isLeaf := rfl
    unfold statusOf
    rw [Bool.not_true, if_neg Bool.false_ne_true]
    cases hleaf : n.isLeaf with
    -- a leaf has the class of its table or its quantity
    | true =>
      rw [hsame, hleaf, if_pos rfl]
      show n.leafStatus = _
      exact leafStatus_eq hstatus hn hclass hneeded hleaf
    | false =>
      rw [hsame, hleaf, if_neg Bool.false_ne_true]
      -- the operands stand before the node, so they have been noted
      have hany : (n.operands.any fun j =>
          (g.withStatuses (mixed status old k)).nodes[j]?.map (·.status) = some .varying) = true ↔
            g.ReachesVarying k := by
        rw [List.any_eq_true, reachesVarying_operator hn hleaf]
        refine exists_congr fun j => and_congr_right fun hj => ?_
        rw [decide_eq_true_iff]
        exact operand_varying_iff hg hstatus hn hneeded hj
      by_cases hvarying : g.ReachesVarying k
      · rw [if_pos (hany.mpr hvarying), (hstatus.varying k hk).mpr ⟨hneeded, hvarying⟩]
      · rw [if_neg (hany.not.mpr hvarying), (hstatus.piecewise k hk).mpr ⟨hneeded, hvarying⟩]

/-- A node without a class has no status. -/
theorem statusOf_unclassified (hg : g.WellFormed) (h : g.Unclassified k n) (s : NodeStatus) :
    g'.statusOf (g.active.getD k false) { n with status := s } = .error (.unclassified n.expr) := by
  have hk : k < g.size := (Array.getElem?_eq_some_iff.mp h.node).1
  have hvaries : ¬n.Varies := by
    rw [Node.Varies, h.noTable]
    exact h.notPointwise
  unfold statusOf
  rw [(active_iff hg hk).mpr h.needed, Bool.not_true, if_neg Bool.false_ne_true,
    if_pos (show ({ n with status := s } : Node R).isLeaf = true from h.leaf)]
  show n.leafStatus = _
  rw [leafStatus_of_not_varies hvaries, if_pos ⟨h.noTable, h.notCellwise⟩]

end Statuses

/-- One node is given its status. -/
theorem partitionNode_mixed (hg : g.WellFormed) {status old : NodeId → NodeStatus}
    (hstatus : g.Statuses status) {k : NodeId} {n : Node R} (hn : g.nodes[k]? = some n)
    (hclass : ¬g.Unclassified k n) :
    Returns (partitionNode g.active k) (g.withStatuses (mixed status old k)) ⟨⟩
      (g.withStatuses (mixed status old (k + 1))) := by
  have hnode : (g.withStatuses (mixed status old k)).node k =
      .ok { n with status := mixed status old k k } := by
    rw [ScalarGraph.node, node_withStatuses, hn]
    rfl
  -- The operands stand below `k`, so the status read off them is the final one.
  have hs : (g.withStatuses (mixed status old k)).statusOf _ _ = _ :=
    statusOf_mixed hg hstatus hn hclass (mixed status old k k)
  -- Writing it at `k` moves the boundary between new and old by one.
  have hset : (g.withStatuses (mixed status old k)).setStatus k (status k) =
      .ok (g.withStatuses (mixed status old (k + 1))) := by
    refine setStatus_withStatuses (Array.getElem?_eq_some_iff.mp hn).1 ?_ fun i hi => ?_
    · exact if_pos (Nat.lt_succ_self k)
    · have hlt : i < k + 1 ↔ i < k := Nat.lt_succ_iff_lt_or_eq.trans (or_iff_left hi)
      simp only [mixed, hlt]
  simp only [partitionNode, returns_bind, returns_get, returns_lift, returns_ofExcept]
  exact ⟨_, _, ⟨rfl, rfl⟩, _, _, ⟨hnode, rfl⟩, _, _, ⟨hs, rfl⟩, _, _, ⟨hset, rfl⟩, rfl⟩

/-- A leaf without a class stops the partition, which leaves the graph. -/
theorem partitionNode_fails (hg : g.WellFormed) {old : NodeId → NodeStatus} {k : NodeId}
    {n : Node R} (h : g.Unclassified k n) :
    Fails (partitionNode g.active k) (g.withStatuses old) (.unclassified n.expr)
      (g.withStatuses old) := by
  have hnode : (g.withStatuses old).node k = .ok { n with status := old k } := by
    rw [ScalarGraph.node, node_withStatuses, h.node]
    rfl
  have hs : (g.withStatuses old).statusOf _ _ = _ := statusOf_unclassified hg h (old k)
  refine fails_bind.mpr (.inr ⟨_, _, returns_get.mpr ⟨rfl, rfl⟩, ?_⟩)
  refine fails_bind.mpr (.inr ⟨_, _, returns_lift.mpr ⟨hnode, rfl⟩, ?_⟩)
  refine fails_bind.mpr (.inl ?_)
  rw [hs]
  rfl

/-- The nodes up to the first without a class are given their statuses. -/
theorem partitionNodes_mixed (hg : g.WellFormed) {status old : NodeId → NodeStatus}
    (hstatus : g.Statuses status) {k : Nat} (hk : k ≤ g.size)
    (hclass : ∀ i < k, ∀ n, ¬g.Unclassified i n) :
    Returns ((List.range k).forM (partitionNode g.active)) (g.withStatuses old) ⟨⟩
      (g.withStatuses (mixed status old k)) := by
  induction k with
  -- before the first node all statuses are the old ones
  | zero =>
    have hsame : g.withStatuses (mixed status old 0) = g.withStatuses old :=
      withStatuses_congr fun i _ => if_neg (Nat.not_lt_zero i)
    rw [hsame]
    exact returns_pure.mpr ⟨rfl, rfl⟩
  | succ k ih =>
    rw [List.range_succ, List.forM_eq_forM, List.forM_append]
    have hn : g.nodes[k]? = some g.nodes[k] := Array.getElem?_eq_getElem hk
    -- the node `k` follows the nodes before it
    refine returns_bind.mpr ⟨⟨⟩, _, ih (by omega) fun i hi => hclass i (by omega), ?_⟩
    refine returns_bind.mpr ⟨⟨⟩, _, ?_, returns_pure.mpr ⟨rfl, rfl⟩⟩
    exact partitionNode_mixed hg hstatus hn (hclass k (Nat.lt_succ_self k) _)

/-- The sweep ends at the first node without a class. -/
theorem partitionNodes_fails (hg : g.WellFormed) {status old : NodeId → NodeStatus}
    (hstatus : g.Statuses status) {k : Nat} {n : Node R} (hn : g.Unclassified k n)
    (hclass : ∀ i < k, ∀ n, ¬g.Unclassified i n) :
    Fails ((List.range g.size).forM (partitionNode g.active)) (g.withStatuses old)
      (.unclassified n.expr) (g.withStatuses (mixed status old k)) := by
  have hk : k < g.size := (Array.getElem?_eq_some_iff.mp hn.node).1
  -- the sweep is its part before the node, the node and the rest
  have hsplit : List.range g.size =
      List.range k ++ k :: List.range' (k + 1) (g.size - (k + 1)) := by
    have hsize : g.size = k + (g.size - (k + 1) + 1) := by omega
    calc List.range g.size
      _ = List.range' 0 (k + (g.size - (k + 1) + 1)) := by rw [← hsize, List.range_eq_range']
      _ = List.range' 0 k ++ List.range' (0 + k) (g.size - (k + 1) + 1) :=
        List.range'_append_1.symm
      _ = _ := by rw [Nat.zero_add, List.range'_succ, List.range_eq_range']
  rw [hsplit, List.forM_eq_forM, List.forM_append]
  have hbefore : Returns _ (g.withStatuses old) PUnit.unit _ :=
    partitionNodes_mixed hg hstatus (Nat.le_of_lt hk) hclass
  refine fails_bind.mpr (.inr ⟨⟨⟩, _, hbefore, ?_⟩)
  exact fails_bind.mpr (.inl (partitionNode_fails hg hn))

/-- All targets are nodes, so the forward sweep is made. -/
theorem run_partition (hg : g.WellFormed) (old : NodeId → NodeStatus) :
    partition.run.run (g.withStatuses old) =
      ((List.range g.size).forM (partitionNode g.active)).run.run (g.withStatuses old) := by
  have htargets : (g.withStatuses old).targets.all (· < (g.withStatuses old).size) = true := by
    rw [size_withStatuses, Array.all_eq_true_iff_forall_mem]
    exact fun t ht => decide_eq_true (hg.targets t ht)
  rw [partition, ExceptT.run_bind, StateT.run_bind]
  -- the graph is read first
  show StateT.run (ExceptT.run (if _ then _ else _)) _ = _
  rw [if_pos htargets, active_withStatuses, ids, size_withStatuses]
  rfl

/-- **The partition is reachability.** Whatever the statuses of an edited graph are, its
partition fails exactly where a leaf that a target needs cannot be classified, at the first such
leaf, and otherwise notes what reachability tells of every node: inactive where no target needs
it, varying where it is needed and reaches a leaf that varies, and else piecewise. -/
theorem partition_reachability (hg : g.Edited) :
    ∃ status, g.Statuses status ∧
      ((∀ i n, ¬g.Unclassified i n) →
        ∀ old, Returns partition (g.withStatuses old) ⟨⟩ (g.withStatuses status)) ∧
      ((∃ i n, g.Unclassified i n) →
        ∃ k n, g.Unclassified k n ∧ (∀ i < k, ∀ n, ¬g.Unclassified i n) ∧
          ∀ old, Fails partition (g.withStatuses old) (.unclassified n.expr)
            (g.withStatuses (mixed status old k))) := by
  have hg := hg.wellFormed
  obtain ⟨status, hstatus⟩ := exists_statuses g
  refine ⟨status, hstatus, fun hclass old => ?_, fun hsome => ?_⟩
  -- after the last node all statuses are new
  · have hrun : Returns _ (g.withStatuses old) PUnit.unit _ :=
      partitionNodes_mixed hg hstatus (Nat.le_refl _) fun i _ => hclass i
    have hall : g.withStatuses (mixed status old g.size) = g.withStatuses status :=
      withStatuses_congr fun i hi => if_pos hi
    rw [hall] at hrun
    exact (run_partition hg old).trans hrun
  · -- the first node without a class
    classical
    obtain ⟨n, hn⟩ := Nat.find_spec hsome
    have hfirst : ∀ i < Nat.find hsome, ∀ n, ¬g.Unclassified i n :=
      fun i hi n h => Nat.find_min hsome hi ⟨n, h⟩
    refine ⟨Nat.find hsome, n, hn, hfirst, fun old => ?_⟩
    exact (run_partition hg old).trans (partitionNodes_fails hg hstatus hn hfirst)

/-! ### A weighted volume -/

namespace WeightedVolume

/-- The volume of the cell, which is constant. -/
def volume : Expr ℚ :=
  .leaf (.geometry ⟨.cellVolume, .ofCell .triangle 0⟩)

def square : Expr ℚ :=
  .binary .product volume volume

/-- The weight of a quadrature point. -/
def weight : Expr ℚ :=
  .leaf (.geometry ⟨.quadratureWeight, .ofCell .triangle 0⟩)

def weighted : Expr ℚ :=
  .binary .product square weight

/-- A function that has no table. -/
def function : Expr ℚ :=
  .leaf (.coefficient ⟨0, ⟨0, 1, []⟩, .ofCell .triangle 0⟩)

def magnitude : Expr ℚ :=
  .unary .abs function

/-- The graph of the square. -/
def squared : ScalarGraph ℚ :=
  (({} : ScalarGraph ℚ).push volume []).push square [0, 0]

/-- The graph whose target is the weighted square. -/
def target : ScalarGraph ℚ :=
  ((squared.push weight []).push weighted [1, 2]).pushTarget 3

/-- The graph with a function that the target does not need. -/
def graph : ScalarGraph ℚ :=
  (target.push function []).push magnitude [4]

/-- The graph is made by insertions and one target. -/
theorem edited_graph : graph.Edited := by
  -- the volume, its square, the weight and their product, in this order
  have hvolume : Returns (insert volume) {} 0 (({} : ScalarGraph ℚ).push volume []) :=
    insert_leaf (lookup_empty _) (by cbv)
  have hg := (insert_returns wellFormed_empty hvolume).wellFormed
  have hsquare : Returns (insert square) {} 1 squared :=
    (InsertRun.binary (lookup_empty _) (by cbv) hvolume (hg.insert_known rfl)).returns
  have hg := (insert_returns wellFormed_empty hsquare).wellFormed
  have hweight : Returns (insert weight) squared 2 (squared.push weight []) :=
    insert_leaf (hg.lookup_eq_none (by decide +kernel)) (by cbv)
  have hweighted : Returns (insert weighted) {} 3 ((squared.push weight []).push weighted [1, 2]) :=
    (InsertRun.binary (lookup_empty _) (by cbv) hsquare hweight).returns
  have htarget : target.Edited :=
    (Edited.empty.inserted hweighted).pushTarget (show 3 < 4 by decide)
  have hg := htarget.wellFormed
  -- the function and its magnitude are inserted after the target
  have hfunction : Returns (insert function) target 4 (target.push function []) :=
    insert_leaf (hg.lookup_eq_none (by decide +kernel)) (by cbv)
  have hmagnitude : Returns (insert magnitude) target 5 graph :=
    (InsertRun.unary rfl (hg.lookup_eq_none (by decide +kernel)) (by cbv) hfunction).returns
  exact htarget.inserted hmagnitude

/-- Only the function has no class. -/
theorem function_of_unclassified {i : NodeId} {n : Node ℚ}
    (h : (graph.pushTarget 5).Unclassified i n) : i = 4 := by
  have hn := h.node
  match i with
  -- the volume is constant on cells
  | 0 =>
    cases hn
    exact absurd (by cbv) h.notCellwise
  -- the operators are no leaves
  | 1 | 3 | 5 =>
    cases hn
    cases h.leaf
  -- the weight is read at the points
  | 2 =>
    cases hn
    exact absurd ⟨_, rfl, .inr (.inr rfl)⟩ h.notPointwise
  | 4 => rfl
  | i + 6 => cases hn

/-- The function is a leaf without a class when its magnitude is needed. -/
theorem unclassified_function {n : Node ℚ} (hn : graph.nodes[4]? = some n) :
    (graph.pushTarget 5).Unclassified 4 n where
  needed := ⟨5, by decide +kernel, .single (by decide +kernel)⟩
  node := hn
  leaf := by cases hn; rfl
  noTable := by cases hn; rfl
  notPointwise := by
    cases hn
    rintro ⟨q, hq, -⟩
    cases hq
  notCellwise := by
    cases hn
    have hvaries : function.isCellwiseConstant = false := by cbv
    exact Bool.eq_false_iff.mp hvaries

/-- The target reaches the nodes before it. -/
theorem reaches_target {i : NodeId} (h : i < 4) : graph.Reaches 3 i := by
  have hsquare : graph.Reaches 3 1 := .single (by decide +kernel)
  match i, h with
  | 0, _ => exact hsquare.tail (by decide +kernel)
  | 1, _ => exact hsquare
  | 2, _ => exact .single (by decide +kernel)
  | 3, _ => exact .refl

/-- The target needs the nodes up to itself. -/
theorem needed_iff {i : NodeId} : graph.Needed i ↔ i < 4 := by
  have htarget : 3 ∈ graph.targets := by decide +kernel
  refine ⟨fun ⟨t, ht, hreaches⟩ => ?_, fun h => ⟨3, htarget, reaches_target h⟩⟩
  obtain rfl : t = 3 := List.mem_singleton.mp (Array.mem_def.mp ht)
  exact Nat.lt_succ_of_le (hreaches.le edited_graph.wellFormed)

/-- Of what the target needs, only the weight varies. -/
theorem varies_iff {i : NodeId} {n : Node ℚ} (hi : i < 4) (hn : graph.nodes[i]? = some n)
    (hleaf : n.isLeaf) : n.Varies ↔ i = 2 := by
  match i, hi with
  -- the volume does not vary
  | 0, _ =>
    cases hn
    constructor
    · rintro ⟨q, hq, hkind⟩
      cases hq
      simp at hkind
    · intro h
      cases h
  | 1, _ | 3, _ =>
    cases hn
    cases hleaf
  -- the weight does
  | 2, _ =>
    cases hn
    exact ⟨fun _ => rfl, fun _ => ⟨_, rfl, .inr (.inr rfl)⟩⟩

/-- The weight and the weighted square reach what varies. -/
theorem reachesVarying_iff {i : NodeId} (hi : i < 4) : graph.ReachesVarying i ↔ 2 ≤ i := by
  constructor
  · rintro ⟨j, n, hreaches, hn, hleaf, hvaries⟩
    have hle := hreaches.le edited_graph.wellFormed
    obtain rfl := (varies_iff (Nat.lt_of_le_of_lt hle hi) hn hleaf).mp hvaries
    exact hle
  · intro h
    have hweight : graph.Reaches i 2 := by
      match i, hi, h with
      | 2, _, _ => exact .refl
      | 3, _, _ => exact reaches_target (by decide)
    exact ⟨2, _, hweight, rfl, rfl, (varies_iff (by decide) rfl rfl).mpr rfl⟩

end WeightedVolume

open WeightedVolume in
/-- The square of the volume is piecewise and the weighted one varying, whatever was noted about
them before. A function without a class is inactive as long as the target does not need it, and
once there is a target that does, the partition fails at the function. -/
theorem partition_reachability_weightedVolume :
    (∃ status : NodeId → NodeStatus, (List.range 6).map status =
        [.piecewise, .piecewise, .varying, .varying, .inactive, .inactive] ∧
      ∀ old, Returns partition (graph.withStatuses old) ⟨⟩ (graph.withStatuses status)) ∧
    ∃ status : NodeId → NodeStatus, ∀ old,
      Fails partition ((graph.pushTarget 5).withStatuses old) (.unclassified function)
        ((graph.pushTarget 5).withStatuses (mixed status old 4)) := by
  constructor
  · obtain ⟨status, hstatus, hreturns, -⟩ := partition_reachability edited_graph
    -- the weight and the product over it
    have hvarying : ∀ i, 2 ≤ i → i < 4 → status i = .varying := fun i h2 h4 =>
      (hstatus.varying i (Nat.lt_of_lt_of_le h4 (by decide))).mpr
        ⟨needed_iff.mpr h4, (reachesVarying_iff h4).mpr h2⟩
    -- the volume and its square
    have hpiecewise : ∀ i < 2, status i = .piecewise := fun i h2 => by
      have h4 : i < 4 := Nat.lt_trans h2 (by decide)
      refine (hstatus.piecewise i (Nat.lt_of_lt_of_le h4 (by decide))).mpr
        ⟨needed_iff.mpr h4, fun h => ?_⟩
      exact Nat.not_le_of_lt h2 ((reachesVarying_iff h4).mp h)
    -- the function and its magnitude are not needed
    have hinactive : ∀ i, 4 ≤ i → i < 6 → status i = .inactive := fun i h4 h6 =>
      (hstatus.inactive i h6).mpr fun h => Nat.not_le_of_lt (needed_iff.mp h) h4
    refine ⟨status, ?_, hreturns fun i n h => ?_⟩
    · simp [List.range_succ, hvarying, hpiecewise, hinactive]
    · -- what is needed has a class
      have hlt := needed_iff.mp h.needed
      have hfour := function_of_unclassified (i := i) (n := n)
        { h with needed := h.needed.imp fun t ht => ⟨Array.mem_push_of_mem _ ht.1, ht.2⟩ }
      exact absurd hfour (Nat.ne_of_lt hlt)
  -- with the magnitude as a target, the function is needed
  · obtain ⟨status, -, -, hfails⟩ :=
      partition_reachability (edited_graph.pushTarget (show 5 < 6 by decide))
    obtain ⟨k, n, hn, -, hfails⟩ := hfails ⟨4, _, unclassified_function rfl⟩
    obtain rfl := function_of_unclassified hn
    have hnode := hn.node
    cases hnode
    exact ⟨status, hfails⟩

end ScalarGraph
end WeakForm
