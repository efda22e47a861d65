import WeakForm.Proofs.GraphTargets
import WeakForm.Proofs.Representation

/-!
# The consumers of nodes

One sweep from the first node to the last adds every node to the lists of its operands. A list
is only looked at where it was added to last: a node that has an operand twice meets itself
there, and any other node is larger than all that are in the list.

* `usersBelow` — the nodes up to some node that have an operand;
* `Noted`, `Noted.operand`, `Noted.node` — what the sweep has added, operand by operand and
  node by node;
* `getElem?_consumers` — the list of each node at the end of the sweep;
* `Converse`, `consumers_converse` — consumers are the converse of operands.
-/

namespace WeakForm.ScalarGraph

open Building

variable {R : Type} [DecidableEq R] {g : ScalarGraph R} {i j k : NodeId}

/-- Operands come before the node that they are operands of. -/
theorem Represented.operand_lt (hg : g.Represented) (h : i ∈ g.operandsAt j) :
    i < j ∧ j < g.size := by
  cases hn : g.nodes[j]? with
  | none => simp [operandsAt, hn] at h
  | some n =>
    rw [operandsAt_eq hn] at h
    have hterminal : n.expr.isModifiedTerminal = false := by
      by_contra hm
      rw [(hg.leaves j n hn).mpr (by simpa using hm)] at h
      cases h
    obtain ⟨a, -, hlt, -⟩ := exists_left_of_mem (hg.operands j n hn hterminal).flip h
    exact ⟨hlt, lt_size_iff.mpr ⟨n, hn⟩⟩

/-! ## The sweep -/

/-- The nodes before node `k` that have node `i` among their operands, in ascending order. -/
def usersBelow (g : ScalarGraph R) (k i : NodeId) : List NodeId :=
  (List.range k).filter fun j => i ∈ g.operandsAt j

theorem mem_usersBelow : j ∈ g.usersBelow k i ↔ j < k ∧ i ∈ g.operandsAt j := by
  simp [usersBelow]

/-- One node more: it is a user if it names the node. -/
theorem usersBelow_succ (g : ScalarGraph R) (k i : NodeId) : g.usersBelow (k + 1) i =
    if i ∈ g.operandsAt k then g.usersBelow k i ++ [k] else g.usersBelow k i := by
  rw [usersBelow, List.range_succ, List.filter_append]
  split
  · next hi => simp [usersBelow, hi]
  · next hi => simp [usersBelow, hi]

theorem pairwise_usersBelow (g : ScalarGraph R) (k i : NodeId) :
    (g.usersBelow k i).Pairwise (· < ·) :=
  List.pairwise_lt_range.filter _

/-- A node is not among the nodes before it. -/
theorem getLast?_usersBelow_ne (g : ScalarGraph R) (k i : NodeId) :
    (g.usersBelow k i).getLast? ≠ some k := by
  intro h
  exact Nat.lt_irrefl k (mem_usersBelow.mp (List.mem_of_getLast? h)).1

/-- All nodes before node `k` are added to the lists of their operands, and node `k` to the
lists of those operands that are done. The last node added comes first. -/
structure Noted (g : ScalarGraph R) (k : NodeId) (done : List NodeId)
    (latest : Array (List NodeId)) : Prop where
  size : latest.size = g.size
  entry : ∀ i < g.size, latest[i]? =
    some (if i ∈ done then k :: (g.usersBelow k i).reverse else (g.usersBelow k i).reverse)

namespace Noted

variable {done : List NodeId} {latest : Array (List NodeId)}

theorem start (g : ScalarGraph R) : Noted g 0 [] (Array.replicate g.size []) where
  size := Array.size_replicate
  entry i hi := by simp [usersBelow, hi]

/-- One more operand. If it was among the operands before, the node is the last one added. -/
theorem operand (h : Noted g k done latest) (o : NodeId) :
    Noted g k (done ++ [o]) (addConsumer latest k o) where
  size := by rw [addConsumer, Array.size_modify, h.size]
  entry i hi := by
    rw [addConsumer, Array.getElem?_modify, h.entry i hi]
    by_cases hio : o = i
    · subst hio
      by_cases hdone : o ∈ done
      · simp [hdone]
      · simp [hdone, getLast?_usersBelow_ne]
    · simp [hio, Ne.symm hio]

/-- A node is noted with every operand it names. -/
theorem operands (h : Noted g k done latest) (rest : List NodeId) :
    Noted g k (done ++ rest) (rest.foldl (addConsumer · k) latest) := by
  induction rest generalizing done latest with
  | nil =>
    rw [List.append_nil]
    exact h
  | cons o rest ih =>
    have hrest := ih (h.operand o)
    rw [List.append_assoc] at hrest
    exact hrest

/-- All operands of one more node. -/
theorem node (h : Noted g k [] latest) :
    Noted g (k + 1) [] ((g.operandsAt k).foldl (addConsumer · k) latest) := by
  have hall := h.operands (g.operandsAt k)
  refine ⟨hall.size, fun i hi => ?_⟩
  rw [hall.entry i hi, usersBelow_succ]
  by_cases hmem : i ∈ g.operandsAt k
  · simp [hmem]
  · simp [hmem]

/-- The nodes before node `k`, one after the other. -/
theorem run (g : ScalarGraph R) (k : NodeId) : Noted g k []
    ((List.range k).foldl (fun latest j => (g.operandsAt j).foldl (addConsumer · j) latest)
      (Array.replicate g.size [])) := by
  induction k with
  | zero => exact start g
  | succ k ih =>
    rw [List.range_succ, List.foldl_concat]
    exact ih.node

end Noted

theorem consumers_noted (g : ScalarGraph R) :
    ∃ latest, Noted g g.size [] latest ∧ g.consumers = latest.map List.reverse :=
  ⟨_, Noted.run g g.size, rfl⟩

theorem size_consumers (g : ScalarGraph R) : g.consumers.size = g.size := by
  obtain ⟨latest, hlatest, heq⟩ := consumers_noted g
  rw [heq, Array.size_map, hlatest.size]

/-- The list of a node has the nodes that have it as an operand. -/
theorem getElem?_consumers (hi : i < g.size) :
    g.consumers[i]? = some (g.usersBelow g.size i) := by
  obtain ⟨latest, hlatest, heq⟩ := consumers_noted g
  rw [heq, Array.getElem?_map, hlatest.entry i hi]
  simp

/-! ## The converse of operands -/

/-- One list for each node, which holds the nodes that have the node as an operand. -/
structure Converse (g : ScalarGraph R) (lists : Array (List NodeId)) : Prop where
  size : lists.size = g.size
  mem : ∀ i j : NodeId, (∃ users, lists[i]? = some users ∧ j ∈ users) ↔ i ∈ g.operandsAt j
  ascending : ∀ users ∈ lists, users.Pairwise (· < ·)
  /-- A node that has an operand, be it twice, is in the list of the operand once. -/
  once : ∀ (i j : NodeId) (users : List NodeId), lists[i]? = some users →
    i ∈ g.operandsAt j → users.count j = 1
  later : ∀ (i j : NodeId) (users : List NodeId), lists[i]? = some users → j ∈ users → i < j

/-- **Consumers are the converse of operands**, in every graph that insertion leads to. -/
theorem consumers_converse (hg : Run g) : g.Converse g.consumers := by
  have hrep := hg.represented
  -- a list stands at a node of the graph
  have hlist : ∀ {i : NodeId} {users : List NodeId}, g.consumers[i]? = some users →
      i < g.size ∧ users = g.usersBelow g.size i := by
    intro i users h
    have hi : i < g.size := by
      rw [← size_consumers]
      exact (Array.getElem?_eq_some_iff.mp h).1
    rw [getElem?_consumers hi] at h
    exact ⟨hi, (Option.some.inj h).symm⟩
  refine ⟨size_consumers g, fun i j => ⟨?_, fun h => ?_⟩, fun users h => ?_,
    fun i j users h hmem => ?_, fun i j users h hj => ?_⟩
  · rintro ⟨users, h, hj⟩
    obtain ⟨-, rfl⟩ := hlist h
    exact (mem_usersBelow.mp hj).2
  -- the user stands after the node, and both are in the graph
  · obtain ⟨hlt, hj⟩ := hrep.operand_lt h
    exact ⟨_, getElem?_consumers (Nat.lt_trans hlt hj), mem_usersBelow.mpr ⟨hj, h⟩⟩
  · obtain ⟨i, hi⟩ := Array.mem_iff_getElem?.mp h
    obtain ⟨-, rfl⟩ := hlist hi
    exact pairwise_usersBelow g g.size i
  · obtain ⟨-, rfl⟩ := hlist h
    have hnodup : (g.usersBelow g.size i).Nodup :=
      (pairwise_usersBelow g g.size i).imp Nat.ne_of_lt
    exact List.count_eq_one_of_mem hnodup (mem_usersBelow.mpr ⟨(hrep.operand_lt hmem).2, hmem⟩)
  · obtain ⟨-, rfl⟩ := hlist h
    exact (hrep.operand_lt (mem_usersBelow.mp hj).2).1

namespace Square

/-- A scalar function. -/
def function : Expr ℚ :=
  .coefficient ⟨0, ⟨0, 1, []⟩, .ofCell .triangle 0⟩

/-- The function times itself. -/
def square : Expr ℚ :=
  .binary .product function function

/-- The graph of the square. -/
def graph : ScalarGraph ℚ :=
  (({} : ScalarGraph ℚ).push function []).push square [0, 0]

/-- The function is inserted as the first factor and found as the second. -/
theorem insert_square : Returns (insert square) {} 1 graph := by
  have hfirst : Returns (insert function) {} 0 (({} : ScalarGraph ℚ).push function []) :=
    insert_leaf (lookup_empty _) (by cbv)
  have hsecond : Returns (insert function) (({} : ScalarGraph ℚ).push function []) 0
      (({} : ScalarGraph ℚ).push function []) :=
    (insert_returns wellFormed_empty hfirst).wellFormed.insert_known rfl
  exact (InsertRun.binary (lookup_empty _) (by cbv) hfirst hsecond).returns

/-- The graph of the square is one that is built up. -/
theorem run_graph : Run graph := by
  have hrun := Run.new.insert (e := square) (by cbv)
  rw [insert_square] at hrun
  exact hrun

end Square

/-- The square has the function as an operand twice and is its consumer once. -/
theorem consumers_converse_square :
    Run Square.graph ∧ Square.graph.operandsAt 1 = [0, 0] ∧
      Square.graph.consumers = #[[1], []] ∧ Square.graph.Converse Square.graph.consumers := by
  exact ⟨Square.run_graph, rfl, by decide +kernel, consumers_converse Square.run_graph⟩

end WeakForm.ScalarGraph
