import WeakForm.Graph.Partition
import WeakForm.Proofs.Annotation

/-!
# The status of nodes

The backward sweep from the targets marks what is needed: a node that is marked has all of
its operands marked. The forward sweep gives every node a status, which depends on the
node's mark, on what is noted about it and on the statuses of its operands, and these come
first.

* `active_operand` — the marks are closed under operands;
* `ScalarGraph.Partitions` — a graph with the statuses noted;
* `partition_returns` — what the forward sweep ends with;
* `Partitions.piecewise` — a node that is piecewise constant has operands that are.
-/

namespace WeakForm

variable {R : Type} [DecidableEq R]

namespace ScalarGraph

open Building

variable {g g' : ScalarGraph R} {k : Nat}

/-- The operands of a node, none past the end. -/
def operandsAt (g : ScalarGraph R) (i : NodeId) : List NodeId :=
  (g.nodes[i]?.map (·.operands)).getD []

theorem operandsAt_eq {i : NodeId} {n : Node R} (hn : g.nodes[i]? = some n) :
    g.operandsAt i = n.operands := by
  rw [operandsAt, hn]
  rfl

/-- Operands stand before a node of the graph. -/
theorem lt_of_mem_operandsAt (hg : g.WellFormed) {i j : Nat} (hj : j ∈ g.operandsAt i) :
    j < i ∧ i < g.size := by
  cases hn : g.nodes[i]? with
  | none => simp [operandsAt, hn] at hj
  | some n =>
    rw [operandsAt_eq hn] at hj
    obtain ⟨a, -, hlt, -⟩ := exists_left_of_mem (hg.nodes i n hn).operands.flip hj
    exact ⟨hlt, (Array.getElem?_eq_some_iff.mp hn).1⟩

/-! ## What targets need -/

/-- Mark nodes one after the other. -/
def markAll (marked : Array Bool) (ids : List NodeId) : Array Bool :=
  ids.foldl (fun marked j => marked.setIfInBounds j true) marked

theorem size_markAll (marked : Array Bool) (ids : List NodeId) :
    (markAll marked ids).size = marked.size := by
  induction ids generalizing marked with
  | nil => rfl
  | cons j ids ih => exact (ih _).trans Array.size_setIfInBounds

/-- A node is marked if it was or if it is one of those to mark. -/
theorem getD_markAll {marked : Array Bool} {ids : List NodeId} {i : Nat}
    (hi : i < marked.size) :
    (markAll marked ids).getD i false ↔ marked.getD i false ∨ i ∈ ids := by
  induction ids generalizing marked with
  | nil => simp [markAll]
  | cons j ids ih =>
    -- one mark more
    have hset : (marked.setIfInBounds j true).getD i false ↔ marked.getD i false ∨ i = j := by
      simp only [Array.getD_eq_getD_getElem?, Array.getElem?_setIfInBounds]
      -- the node marked, or another one
      by_cases hij : j = i
      · simp [hij, hi]
      · simp [hij, Ne.symm hij]
    have hi' : i < (marked.setIfInBounds j true).size := by rwa [Array.size_setIfInBounds]
    have hrest := ih hi'
    rw [hset, or_assoc, ← List.mem_cons] at hrest
    exact hrest

theorem markOperands_eq (marked : Array Bool) (k : NodeId) : g.markOperands marked k =
    if marked.getD k false then markAll marked (g.operandsAt k) else marked :=
  rfl

theorem size_markOperands (marked : Array Bool) (k : NodeId) :
    (g.markOperands marked k).size = marked.size := by
  rw [markOperands_eq]
  split
  · exact size_markAll _ _
  · rfl

/-- Only operands of a marked node are marked on its behalf. -/
theorem getD_markOperands {marked : Array Bool} {k i : Nat} (hi : i < marked.size) :
    (g.markOperands marked k).getD i false ↔
      marked.getD i false ∨ marked.getD k false ∧ i ∈ g.operandsAt k := by
  rw [markOperands_eq]
  by_cases hk : marked.getD k false
  · rw [if_pos hk, getD_markAll hi, and_iff_right hk]
  · rw [if_neg hk, or_iff_left fun h => hk h.1]

/-- The nodes from `k` on are swept: where they are marked, their operands are. -/
structure MarkedFrom (g : ScalarGraph R) (k : Nat) (marked : Array Bool) : Prop where
  size : marked.size = g.size
  operands : ∀ i j : Nat, k ≤ i → marked.getD i false → j ∈ g.operandsAt i →
    marked.getD j false

/-- The sweep comes to one more node. -/
theorem MarkedFrom.step (hg : g.WellFormed) {k : Nat} {marked : Array Bool}
    (h : g.MarkedFrom (k + 1) marked) : g.MarkedFrom k (g.markOperands marked k) where
  size := (size_markOperands marked k).trans h.size
  operands i j hik hi hj := by
    have hlt := lt_of_mem_operandsAt hg hj
    have hsize := h.size
    rw [getD_markOperands (by omega)] at hi ⊢
    -- operands of the node `k` come before it
    have hi : marked.getD i false := by
      rcases hi with hi | ⟨-, hmem⟩
      · exact hi
      · have := lt_of_mem_operandsAt hg hmem
        omega
    -- the node `k` itself, whose operands are marked now
    rcases Nat.eq_or_lt_of_le hik with rfl | hki
    · exact .inr ⟨hi, hj⟩
    · exact .inl (h.operands i j hki hi hj)

/-- The sweep from a node down to the first. -/
theorem MarkedFrom.run (hg : g.WellFormed) {k : Nat} {marked : Array Bool}
    (h : g.MarkedFrom k marked) :
    g.MarkedFrom 0 ((List.range k).reverse.foldl g.markOperands marked) := by
  induction k generalizing marked with
  | zero => exact h
  | succ k ih =>
    rw [List.range_succ, List.reverse_append, List.reverse_singleton, List.singleton_append,
      List.foldl_cons]
    exact ih (h.step hg)

/-- What is needed is closed under operands. -/
theorem active_marked (hg : g.WellFormed) : g.MarkedFrom 0 g.active := by
  refine MarkedFrom.run hg ⟨?_, fun i j hi _ hj => ?_⟩
  · rw [← Array.foldl_toList]
    exact (size_markAll _ _).trans Array.size_replicate
  · have := lt_of_mem_operandsAt hg hj
    omega

/-- **What is needed is closed under operands.** -/
theorem active_operand (hg : g.WellFormed) {i j : Nat} (hi : g.active.getD i false)
    (hj : j ∈ g.operandsAt i) : g.active.getD j false :=
  (active_marked hg).operands i j (Nat.zero_le i) hi hj

/-! ## The forward sweep -/

/-- The status of a node depends on those of its operands. -/
theorem statusOf_congr {active : Bool} {n : Node R} {s : NodeStatus}
    (h : ∀ j ∈ n.operands, g'.nodes[j]?.map (·.status) = g.nodes[j]?.map (·.status)) :
    g'.statusOf active { n with status := s } = g.statusOf active n := by
  have hany : (n.operands.any fun j => g'.nodes[j]?.map (·.status) = some .varying) =
      n.operands.any fun j => g.nodes[j]?.map (·.status) = some .varying := by
    refine Bool.eq_iff_iff.mpr ?_
    simp only [List.any_eq_true, decide_eq_true_eq]
    exact exists_congr fun j => and_congr_right fun hj => by rw [h j hj]
  unfold statusOf
  rw [← hany]
  rfl

/-- The nodes before `k` have their statuses noted, and nothing else is changed. -/
structure StatusesTo (g : ScalarGraph R) (k : Nat) (g' : ScalarGraph R) : Prop where
  index : g'.index = g.index
  targets : g'.targets = g.targets
  size : g'.size = g.size
  nodes : ∀ (i : Nat) (n' : Node R), g'.nodes[i]? = some n' →
    ∃ n, g.nodes[i]? = some n ∧ n' = { n with status := n'.status } ∧
      (i < k → g'.statusOf (g.active.getD i false) n' = .ok n'.status)

/-- The graph `g'` is `g` with the status of every node noted. -/
def Partitions (g g' : ScalarGraph R) : Prop :=
  g.StatusesTo g.size g'

/-- The nodes keep everything but their status. -/
theorem StatusesTo.node (h : g.StatusesTo k g') {i : Nat} {n : Node R} (hn : g.nodes[i]? = some n) :
    ∃ s, g'.nodes[i]? = some { n with status := s } := by
  have hlt : i < g'.nodes.size := by
    have hsize := h.size
    have hlt := (Array.getElem?_eq_some_iff.mp hn).1
    rw [ScalarGraph.size, ScalarGraph.size] at hsize
    omega
  obtain ⟨m, hm, heq, -⟩ := h.nodes i _ (Array.getElem?_eq_getElem hlt)
  obtain rfl : n = m := Option.some.inj (hn.symm.trans hm)
  exact ⟨_, by rw [Array.getElem?_eq_getElem hlt, ← heq]⟩

/-- One node has its status noted. -/
theorem partitionNode_returns {active : Array Bool} {u : PUnit}
    (h : Returns (partitionNode active k) g u g') :
    ∃ n s, g.nodes[k]? = some n ∧ g.statusOf (active.getD k false) n = .ok s ∧
      g' = { g with nodes := g.nodes.modify k fun n => { n with status := s } } := by
  simp only [partitionNode, returns_bind, returns_get, returns_lift, returns_ofExcept] at h
  obtain ⟨_, _, ⟨rfl, rfl⟩, n, _, ⟨hn, rfl⟩, s, _, ⟨hs, rfl⟩, g₁, _, ⟨hset, rfl⟩, hr⟩ := h
  -- the graph is read, checked and written back
  obtain rfl : g₁ = g' := by
    cases hr
    rfl
  refine ⟨n, s, ?_, hs, ?_⟩
  -- the node is there, since it was read
  · unfold ScalarGraph.node at hn
    split at hn
    · next m hm =>
      cases hn
      exact hm
    · cases hn
  -- and the status was written to it
  · unfold setStatus annotate at hset
    split at hset
    · exact (Except.ok.inj hset).symm
    · cases hset

/-- The sweep comes to one more node. -/
theorem StatusesTo.step (hg : g.WellFormed) {g₁ g₂ : ScalarGraph R} (h : g.StatusesTo k g₁)
    {u : PUnit} (hr : Returns (partitionNode g.active k) g₁ u g₂) : g.StatusesTo (k + 1) g₂ := by
  obtain ⟨m, s, hm, hs, rfl⟩ := partitionNode_returns hr
  -- only the status of the node `k` is written
  have hkeeps : ∀ j : Nat, j < k → (g₁.nodes.modify k fun n => { n with status := s })[j]? =
      g₁.nodes[j]? := by
    intro j hj
    rw [Array.getElem?_modify, if_neg (by omega)]
  refine ⟨h.index, h.targets, ?_, fun i n' hn' => ?_⟩
  · rw [← h.size]
    exact Array.size_modify
  · rw [Array.getElem?_modify] at hn'
    split at hn'
    · -- the node that is swept
      next hki =>
      subst hki
      rw [hm] at hn'
      obtain rfl : { m with status := s } = n' := Option.some.inj hn'
      obtain ⟨n, hn, heq, -⟩ := h.nodes k m hm
      refine ⟨n, hn, by rw [heq], fun _ => ?_⟩
      have hoperands : m.operands = g.operandsAt k := by rw [heq, operandsAt_eq hn]
      rw [statusOf_congr (g := g₁) fun j hj => ?_]
      · exact hs
      · rw [hkeeps j (lt_of_mem_operandsAt hg (hoperands ▸ hj)).1]
    · -- a node before it has operands before it, and a node after it is not swept
      next hki =>
      obtain ⟨n, hn, heq, hstatus⟩ := h.nodes i n' hn'
      refine ⟨n, hn, heq, fun hik => ?_⟩
      have hoperands : n'.operands = g.operandsAt i := by rw [heq, operandsAt_eq hn]
      have hsame : statusOf { g₁ with nodes := g₁.nodes.modify k fun n => { n with status := s } }
          (g.active.getD i false) { n' with status := n'.status } =
          g₁.statusOf (g.active.getD i false) n' := by
        refine statusOf_congr fun j hj => ?_
        have := (lt_of_mem_operandsAt hg (hoperands ▸ hj)).1
        rw [hkeeps j (by omega)]
      -- the other statuses are as the sweep has left them
      exact hsame.trans (hstatus (by omega))

/-- The sweep over as many nodes as are left. -/
theorem StatusesTo.run (hg : g.WellFormed) {rest : Nat} {g₁ : ScalarGraph R} {u : PUnit}
    (h : g.StatusesTo k g₁)
    (hr : Returns ((List.range' k rest).forM (partitionNode g.active)) g₁ u g') :
    g.StatusesTo (k + rest) g' := by
  induction rest generalizing k g₁ with
  | zero =>
    obtain ⟨-, rfl⟩ := returns_pure.mp hr
    exact h
  | succ rest ih =>
    obtain ⟨v, g₂, hfirst, hr⟩ := returns_bind.mp hr
    have hall := ih (h.step hg hfirst) hr
    rwa [Nat.add_right_comm, Nat.add_assoc] at hall

/-- **What the forward sweep ends with**: every node has a status, which it has from its
mark, what is noted about it and the statuses of its operands. -/
theorem partition_returns (hg : g.WellFormed) {u : PUnit} (h : Returns partition g u g') :
    g.Partitions g' := by
  simp only [partition, returns_bind, returns_get] at h
  obtain ⟨_, _, ⟨rfl, rfl⟩, h⟩ := h
  have hstart : g.StatusesTo 0 g :=
    ⟨rfl, rfl, rfl, fun i n hn => ⟨n, hn, rfl, fun hi => absurd hi (Nat.not_lt_zero i)⟩⟩
  split at h
  · rw [ids, List.range_eq_range'] at h
    have hall := hstart.run hg h
    rwa [Nat.zero_add] at hall
  · simp at h

/-! ## What a status says -/

namespace Partitions

variable (h : g.Partitions g')

include h

/-- Statuses are only noted. -/
theorem reannotates : g.Reannotates g' := by
  refine reannotates_of_nodes h.size h.index h.targets fun i n' hn' => ?_
  obtain ⟨n, hn, heq, -⟩ := h.nodes i n' hn'
  refine ⟨n, hn, ?_⟩
  rw [heq]
  exact ⟨rfl, rfl⟩

/-- A partitioned graph is well formed. -/
theorem wellFormed (hg : g.WellFormed) : g'.WellFormed := by
  refine h.reannotates.wellFormed hg fun i n' hn' m hm => ?_
  obtain ⟨n, hn, heq, -⟩ := h.nodes i n' hn'
  rw [heq] at hm ⊢
  exact (hg.nodes i n hn).noted m hm

/-- The status of a node, as it is noted. -/
theorem status {i : Nat} {n : Node R} (hn : g'.nodes[i]? = some n) :
    g'.statusOf (g.active.getD i false) n = .ok n.status := by
  obtain ⟨m, hm, -, hstatus⟩ := h.nodes i n hn
  exact hstatus (Array.getElem?_eq_some_iff.mp hm).1

/-- A partition keeps the operands. -/
theorem operandsAt (i : NodeId) : g'.operandsAt i = g.operandsAt i := by
  rw [ScalarGraph.operandsAt, ScalarGraph.operandsAt]
  cases hn : g.nodes[i]? with
  | some n =>
    obtain ⟨n', hn', -, hoperands⟩ := h.reannotates.node hn
    rw [hn', Option.map_some, Option.map_some, hoperands]
  | none =>
    have hle : g'.nodes.size ≤ i := by
      rw [Array.getElem?_eq_none_iff] at hn
      exact Nat.le_trans (Nat.le_of_eq h.size) hn
    rw [Array.getElem?_eq_none hle]

end Partitions

omit [DecidableEq R] in
/-- No leaf is classified as inactive. -/
theorem leafStatus_ne_inactive {n : Node R} : n.leafStatus ≠ .ok .inactive := by
  unfold Node.leafStatus
  repeat' split
  all_goals nofun

/-- A node that is needed has another status than `inactive`. -/
theorem statusOf_ne_inactive {n : Node R} : g.statusOf true n ≠ .ok .inactive := by
  unfold statusOf
  rw [Bool.not_true, if_neg Bool.false_ne_true]
  split
  · exact leafStatus_ne_inactive
  · split
    · nofun
    · nofun

/-- **A piecewise constant node** is a leaf that is classified as such, or has operands that
are all piecewise constant. -/
theorem Partitions.piecewise (hg : g.WellFormed) (h : g.Partitions g') {i : Nat} {n : Node R}
    (hn : g'.nodes[i]? = some n) (hs : n.status = .piecewise) :
    (n.isLeaf ∧ n.leafStatus = .ok .piecewise) ∨
      (n.isLeaf = false ∧
        ∀ j ∈ n.operands, ∃ m, g'.nodes[j]? = some m ∧ m.status = .piecewise) := by
  have hstatus := h.status hn
  rw [hs] at hstatus
  cases hactive : g.active.getD i false with
  -- an inactive node is not piecewise
  | false =>
    rw [hactive] at hstatus
    cases hstatus
  | true =>
    rw [hactive, statusOf, Bool.not_true, if_neg Bool.false_ne_true] at hstatus
    cases hleaf : n.isLeaf with
    | true =>
      -- a leaf has its own status
      rw [if_pos hleaf] at hstatus
      exact .inl ⟨rfl, hstatus⟩
    | false =>
      rw [if_neg (by simp [hleaf])] at hstatus
      refine .inr ⟨rfl, fun j hj => ?_⟩
      -- no operand is varying, and an operand of a needed node is needed
      have hoperand : j ∈ g.operandsAt i := by rwa [← h.operandsAt, operandsAt_eq hn]
      have hneeded := active_operand hg hactive hoperand
      have hlt : j < g'.nodes.size := by
        have hsize : g'.nodes.size = g.size := h.size
        obtain ⟨hji, hi⟩ := lt_of_mem_operandsAt hg hoperand
        rw [hsize]
        exact Nat.lt_trans hji hi
      -- the operand is a node of the partitioned graph
      have hm : g'.nodes[j]? = some g'.nodes[j] := Array.getElem?_eq_getElem hlt
      refine ⟨g'.nodes[j], hm, ?_⟩
      have hjstatus := h.status hm
      rw [hneeded] at hjstatus
      cases hstatusj : g'.nodes[j].status with
      | piecewise => rfl
      | inactive =>
        rw [hstatusj] at hjstatus
        exact absurd hjstatus statusOf_ne_inactive
      -- a varying operand makes the node varying
      | varying =>
        have hany : n.operands.any fun j => g'.nodes[j]?.map (·.status) = some .varying := by
          refine List.any_eq_true.mpr ⟨j, hj, ?_⟩
          rw [hm, Option.map_some, hstatusj]
          exact decide_eq_true rfl
        rw [if_pos hany] at hstatus
        cases hstatus

end ScalarGraph

end WeakForm
