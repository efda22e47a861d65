import Mathlib.Data.Finset.Card
import Mathlib.Data.List.Permutation
import Mathlib.Data.List.ReduceOption
import Mathlib.Data.Nat.Count
import WeakForm.Graph.Registers
import WeakForm.Proofs.Partition

/-!
# The allotment of registers

The nodes are taken in the order of their scores, and each that is not marked yet costs one
unit of the budget. What the loop marks is therefore a prefix of the nodes that are worth a
register, without the targets. The marks are then numbered in the order of the nodes.

* `markBest_eq` — the loop over the nodes marks a prefix of those that it has not seen marked;
* `ScalarGraph.Candidates` — the nodes besides the targets which are worth a register, in
  their order;
* `ScalarGraph.registers_greedy` — which nodes have a register, and which register they have.
-/

namespace WeakForm.ScalarGraph

variable {R : Type} [DecidableEq R] {g : ScalarGraph R}

/-! ## Nodes in the order of their scores -/

/-- One node comes before another: its score is higher, or the same and it is the earlier. -/
def Better (a b : Nat × NodeId) : Prop :=
  b.1 < a.1 ∨ b.1 = a.1 ∧ a.2 < b.2

theorem betterLE_iff {a b : Nat × NodeId} : betterLE a b ↔ Better a b ∨ a = b := by
  grind [betterLE, Better]

theorem betterLE_trans {a b c : Nat × NodeId} (h : betterLE a b) (h' : betterLE b c) :
    betterLE a c := by
  grind [betterLE]

theorem betterLE_total (a b : Nat × NodeId) : betterLE a b || betterLE b a := by
  grind [betterLE]

/-- The queue holds the nodes that have a score. -/
theorem mem_ranked {scores : List (Option Nat)} {s : Nat} {i : NodeId} :
    (s, i) ∈ ranked scores ↔ scores[i]? = some (some s) := by
  rw [ranked, List.mem_mergeSort, List.mem_filterMap]
  constructor
  · rintro ⟨⟨s?, j⟩, hmem, heq⟩
    obtain ⟨s', rfl, heq⟩ := Option.map_eq_some_iff.mp heq
    cases heq
    exact List.mem_zipIdx_iff_getElem?.mp hmem
  · intro h
    exact ⟨(some s, i), List.mem_zipIdx_iff_getElem?.mpr h, rfl⟩

/-- The better of two nodes comes first, and no node comes twice. -/
theorem pairwise_ranked (scores : List (Option Nat)) :
    (ranked scores).Pairwise fun a b => Better a b ∧ a.2 ≠ b.2 := by
  have hsorted : (ranked scores).Pairwise fun a b => betterLE a b := by
    refine List.pairwise_mergeSort ?_ betterLE_total _
    exact fun _ _ _ => betterLE_trans
  -- No two entries share an id: zipping numbers them, and filtering and sorting keep that.
  have hplaces : scores.zipIdx.Pairwise fun a b => a.2 ≠ b.2 := by
    have hnodup : (scores.zipIdx.map Prod.snd).Nodup := by
      simpa only [List.zipIdx_map_snd] using List.nodup_range'
    exact List.pairwise_map.mp hnodup
  have hids : (ranked scores).Pairwise fun a b => a.2 ≠ b.2 := by
    refine ((List.mergeSort_perm _ _).pairwise_iff fun h => h.symm).mpr (hplaces.filterMap _ ?_)
    rintro ⟨s?, i⟩ ⟨t?, j⟩ hne a ha b hb
    obtain ⟨s, -, rfl⟩ := Option.map_eq_some_iff.mp ha
    obtain ⟨t, -, rfl⟩ := Option.map_eq_some_iff.mp hb
    exact hne
  refine (hsorted.and hids).imp fun ⟨hle, hne⟩ => ⟨?_, hne⟩
  -- The order of the ranking is total only up to equal ids, which were just excluded.
  exact (betterLE_iff.mp hle).resolve_right fun h => hne (congrArg _ h)

/-! ## The loop over the nodes -/

theorem getD_setIfInBounds {marked : Array Bool} {i j : Nat} (hj : j ≠ i) :
    (marked.setIfInBounds i true).getD j false = marked.getD j false := by
  simp [Array.getD_eq_getD_getElem?, hj.symm]

/-- The nodes of a queue that are above the threshold and not marked. -/
def unmarked (threshold : Nat) (marked : Array Bool) (queue : List (Nat × NodeId)) :
    List (Nat × NodeId) :=
  queue.filter fun a => threshold < a.1 ∧ marked.getD a.2 false = false

section Unmarked

variable {threshold s : Nat} {i : NodeId} {marked : Array Bool} {queue : List (Nat × NodeId)}

/-- Behind a node with a low score there are only low scores. -/
theorem unmarked_of_le (hfirst : ∀ b ∈ queue, Better (s, i) b) (hs : s ≤ threshold) :
    unmarked threshold marked ((s, i) :: queue) = [] := by
  refine List.filter_eq_nil_iff.mpr fun b hb => ?_
  have hle : b.1 ≤ s := by
    rcases List.mem_cons.mp hb with rfl | hb
    · exact le_rfl
    · rcases hfirst b hb with hlt | ⟨heq, -⟩
      · exact hlt.le
      · exact heq.le
  simp only [decide_eq_true_eq, not_and]
  omega

theorem unmarked_of_marked (hi : marked.getD i false) :
    unmarked threshold marked ((s, i) :: queue) = unmarked threshold marked queue :=
  List.filter_cons_of_neg (by simp only [hi]; simp)

/-- A node that is marked is not met again. -/
theorem unmarked_cons (hs : threshold < s) (hi : ¬marked.getD i false)
    (hnew : ∀ b ∈ queue, b.2 ≠ i) : unmarked threshold marked ((s, i) :: queue) =
      (s, i) :: unmarked threshold (marked.setIfInBounds i true) queue := by
  have hsame : unmarked threshold (marked.setIfInBounds i true) queue =
      unmarked threshold marked queue := by
    refine List.filter_congr fun b hb => ?_
    rw [getD_setIfInBounds (hnew b hb)]
  rw [hsame]
  exact List.filter_cons_of_pos (decide_eq_true ⟨hs, Bool.eq_false_iff.mpr hi⟩)

end Unmarked

/-- **What the loop marks**: as many of the nodes that it can mark as the budget allows. -/
theorem markBest_eq {threshold budget : Nat} {queue : List (Nat × NodeId)}
    {marked : Array Bool} (hq : queue.Pairwise fun a b => Better a b ∧ a.2 ≠ b.2) :
    markBest threshold budget queue marked =
      markAll marked (((unmarked threshold marked queue).take budget).map (·.2)) := by
  -- node by node; the budget and the marks change on the way
  induction queue generalizing budget marked with
  | nil => cases budget <;> simp [markBest, unmarked, markAll]
  | cons a queue ih =>
    obtain ⟨s, i⟩ := a
    obtain ⟨hfirst, hrest⟩ := List.pairwise_cons.mp hq
    cases budget with
    -- without a budget nothing is marked
    | zero => simp [markBest, markAll]
    | succ budget =>
      rw [markBest]
      split
      -- the score is too low, and so are all that follow
      · next hs =>
        rw [unmarked_of_le (fun b hb => (hfirst b hb).1) hs]
        rfl
      · next hs =>
        split
        · -- the node is marked, and the budget stays
          next hi => rw [unmarked_of_marked hi, ih hrest]
        -- the node is marked, and the budget is smaller
        · next hi =>
          rw [unmarked_cons (by omega) hi fun b hb => (hfirst b hb).2.symm, ih hrest]
          rfl

/-! ## Numbering -/

/-- The number of a marked node is the number of marked ones before it. -/
theorem getElem?_number (next : Nat) (marked : List Bool) (i : Nat) :
    (number next marked)[i]? =
      marked[i]?.map fun b => if b then some (next + (marked.take i).count true) else none := by
  induction marked generalizing next i with
  | nil => rfl
  | cons b marked ih =>
    cases b <;> cases i with
    | zero => simp [number]
    | succ i => simp [number, ih, Nat.add_assoc, Nat.add_comm 1]

theorem length_number (next : Nat) (marked : List Bool) :
    (number next marked).length = marked.length := by
  induction marked generalizing next with
  | nil => rfl
  | cons b marked ih => cases b <;> simp [number, ih]

/-- The numbers that are given are consecutive. -/
theorem reduceOption_number (next : Nat) (marked : List Bool) :
    (number next marked).reduceOption = List.range' next (marked.count true) := by
  induction marked generalizing next with
  | nil => rfl
  | cons b marked ih =>
    cases b with
    | false => simp [number, ih]
    | true => simp [number, ih, List.range'_succ]

/-- A marked node has more marks at later places. -/
theorem count_take_lt {marked : List Bool} {i j : Nat} (hi : marked[i]? = some true)
    (hij : i < j) : (marked.take i).count true < (marked.take j).count true := by
  have hlast : (marked.take (i + 1)).count true = (marked.take i).count true + 1 := by
    simp [List.take_add_one, hi]
  have hle := (List.take_sublist_take_left (l := marked) (show i + 1 ≤ j from hij)).count_le true
  omega

/-- A node has the register that counts the marks before it. -/
theorem getElem?_number_eq_some {next r : Nat} {marked : List Bool} {i : Nat} :
    (number next marked)[i]? = some (some r) ↔
      marked[i]? = some true ∧ next + (marked.take i).count true = r := by
  rw [getElem?_number]
  rcases marked[i]? with _ | _ | _ <;> simp

/-- The marked nodes are those with a number. -/
theorem exists_number_iff {next : Nat} {marked : Array Bool} {i : Nat} :
    (∃ r, (number next marked.toList)[i]? = some (some r)) ↔ marked.getD i false := by
  simp only [getElem?_number_eq_some, Array.getElem?_toList, Array.getD_eq_getD_getElem?]
  rcases marked[i]? with _ | _ | _ <;> simp

/-- Two marked nodes have different numbers. -/
theorem number_inj {next r : Nat} {marked : List Bool} {i j : Nat}
    (hi : (number next marked)[i]? = some (some r))
    (hj : (number next marked)[j]? = some (some r)) : i = j := by
  rw [getElem?_number_eq_some] at hi hj
  rcases Nat.lt_trichotomy i j with hij | rfl | hji
  · have := count_take_lt hi.1 hij
    omega
  · rfl
  · have := count_take_lt hj.1 hji
    omega

/-- The number of marks, counted as a set of nodes. -/
theorem count_eq_card (marked : Array Bool) : marked.count true =
    ((Finset.range marked.size).filter fun i => marked.getD i false).card := by
  have hlist : marked.toList = (List.range marked.size).map fun i => marked.getD i false := by
    refine List.ext_getElem (by simp) fun i hi _ => ?_
    simp at hi ⊢
    simp [hi]
  rw [← Nat.count_eq_card_filter_range, Nat.count, ← Array.count_toList, hlist,
    List.count, List.countP_map]
  refine List.countP_congr fun i _ => by simp

/-! ## The nodes that are kept -/

/-- The nodes that are targets, each once. -/
def distinctTargets (g : ScalarGraph R) : Finset NodeId :=
  g.targets.toList.toFinset

theorem mem_distinctTargets {i : NodeId} : i ∈ g.distinctTargets ↔ i ∈ g.targets := by
  simp [distinctTargets]

/-- Targets are marked first. -/
theorem targetMarks_eq (g : ScalarGraph R) :
    g.targetMarks = markAll (Array.replicate g.size false) g.targets.toList := by
  rw [targetMarks, ← Array.foldl_toList]
  rfl

theorem size_targetMarks (g : ScalarGraph R) : g.targetMarks.size = g.size := by
  rw [targetMarks_eq, size_markAll, Array.size_replicate]

/-- The targets are marked, and nothing else. -/
theorem getD_targetMarks {i : Nat} (hi : i < g.size) :
    g.targetMarks.getD i false ↔ i ∈ g.targets := by
  rw [targetMarks_eq, getD_markAll (by simpa using hi)]
  simp [hi]

/-- The marks count distinct targets. -/
theorem targetCount_eq (hg : ∀ t ∈ g.targets, t < g.size) :
    g.targetCount = g.distinctTargets.card := by
  rw [targetCount, count_eq_card, size_targetMarks]
  congr 1
  ext i
  rw [Finset.mem_filter, Finset.mem_range, mem_distinctTargets]
  constructor
  · rintro ⟨hi, hmark⟩
    exact (getD_targetMarks hi).mp hmark
  · intro hi
    exact ⟨hg i hi, (getD_targetMarks (hg i hi)).mpr hi⟩

/-- The nodes besides the targets whose score is above the threshold, by descending score
and then by ascending number. -/
structure Candidates (g : ScalarGraph R) (scores : List (Option Nat)) (p : Parameters R)
    (others : List (Nat × NodeId)) : Prop where
  sorted : others.Pairwise Better
  mem : ∀ s i, (s, i) ∈ others ↔
    scores[i]? = some (some s) ∧ p.scoreThreshold < s ∧ i ∉ g.targets

/-- Registers for the targets, and for the first of the other candidates. -/
structure Allots (g : ScalarGraph R) (others : List (Nat × NodeId)) (p : Parameters R)
    (registers : List (Option Nat)) : Prop where
  length : registers.length = g.size
  /-- What has a register. -/
  kept : ∀ i : NodeId, (∃ r, registers[i]? = some (some r)) ↔
    i ∈ g.targets ∨ i ∈ (others.take (max g.distinctTargets.card
      (min p.maxRegisters g.size - g.distinctTargets.card))).map (·.2)
  /-- In the order of the nodes, registers are numbered from zero without gaps. -/
  dense : registers.reduceOption = List.range registers.reduceOption.length
  injective : ∀ (i j : NodeId) (r : Nat), registers[i]? = some (some r) →
    registers[j]? = some (some r) → i = j
  bound : registers.reduceOption.length ≤
    max (2 * g.distinctTargets.card) (min p.maxRegisters g.size)

/-- The nodes that the loop over the nodes can mark are the candidates. -/
theorem candidates_unmarked {scores : List (Option Nat)} {p : Parameters R}
    (hs : scores.length = g.size) :
    g.Candidates scores p (unmarked p.scoreThreshold g.targetMarks (ranked scores)) where
  sorted := ((pairwise_ranked scores).imp And.left).filter _
  mem s i := by
    rw [unmarked, List.mem_filter, mem_ranked, decide_eq_true_eq]
    refine and_congr_right fun hscore => and_congr_right fun _ => ?_
    have hi : i < g.size := by
      rw [← hs]
      exact (List.getElem?_eq_some_iff.mp hscore).1
    rw [← getD_targetMarks hi, Bool.not_eq_true]

section Marks

variable {ids : List NodeId}

theorem size_marks (g : ScalarGraph R) (ids : List NodeId) :
    (markAll g.targetMarks ids).size = g.size := by
  rw [size_markAll, size_targetMarks]

/-- The targets and some more nodes of the graph are marked. -/
theorem getD_marks (hg : ∀ t ∈ g.targets, t < g.size) (hids : ∀ i ∈ ids, i < g.size)
    (i : NodeId) : (markAll g.targetMarks ids).getD i false ↔ i ∈ g.targets ∨ i ∈ ids := by
  by_cases hi : i < g.size
  · rw [getD_markAll (by rwa [size_targetMarks]), getD_targetMarks hi]
  · -- no node past the end is marked, or is one of those to mark
    have hnone : (markAll g.targetMarks ids)[i]? = none :=
      Array.getElem?_eq_none ((size_marks g ids).trans_le (not_lt.mp hi))
    rw [Array.getD_eq_getD_getElem?, hnone]
    constructor
    · intro h
      cases h
    · rintro (htarget | hmem)
      · exact absurd (hg i htarget) hi
      · exact absurd (hids i hmem) hi

/-- There are at most as many marks as targets and chosen nodes. -/
theorem count_marks_le (hg : ∀ t ∈ g.targets, t < g.size) (hids : ∀ i ∈ ids, i < g.size) :
    (markAll g.targetMarks ids).count true ≤ g.distinctTargets.card + ids.length := by
  have hsub : ((Finset.range g.size).filter fun i => (markAll g.targetMarks ids).getD i false) ⊆
      g.distinctTargets ∪ ids.toFinset := by
    intro i hi
    rw [Finset.mem_union, mem_distinctTargets, List.mem_toFinset]
    exact (getD_marks hg hids i).mp (Finset.mem_filter.mp hi).2
  rw [count_eq_card, size_marks]
  calc _ ≤ (g.distinctTargets ∪ ids.toFinset).card := Finset.card_le_card hsub
    _ ≤ g.distinctTargets.card + ids.toFinset.card := Finset.card_union_le _ _
    _ ≤ g.distinctTargets.card + ids.length := Nat.add_le_add_left (List.toFinset_card_le ids) _

end Marks

/-- The numbers of the nodes that are marked in the end. -/
theorem allots_number {others : List (Nat × NodeId)} {p : Parameters R}
    (hg : ∀ t ∈ g.targets, t < g.size) (hothers : ∀ a ∈ others, a.2 < g.size) :
    g.Allots others p
      (number 0 (markAll g.targetMarks ((others.take (g.budget p)).map (·.2))).toList) := by
  rw [budget, targetCount_eq hg]
  set k := max g.distinctTargets.card (min p.maxRegisters g.size - g.distinctTargets.card) with hk
  -- candidates are nodes
  have hids : ∀ i ∈ (others.take k).map (·.2), i < g.size := by
    intro i hi
    obtain ⟨a, ha, rfl⟩ := List.mem_map.mp hi
    exact hothers a (List.mem_of_mem_take ha)
  -- registers are numbered without gaps
  have hdense := reduceOption_number 0 (markAll g.targetMarks ((others.take k).map (·.2))).toList
  rw [Array.count_toList, ← List.range_eq_range'] at hdense
  exact {
    length := by rw [length_number, Array.length_toList, size_marks]
    kept := fun i => by rw [exists_number_iff, getD_marks hg hids]
    dense := by rw [hdense, List.length_range]
    injective := fun i j r => number_inj
    -- A target among the first `k` candidates is marked once, so the count may fall short.
    bound := by
      have hcount := count_marks_le hg hids
      have htake : ((others.take k).map (·.2)).length ≤ k := by
        rw [List.length_map]
        exact List.length_take_le _ _
      rw [hdense, List.length_range]
      omega }

/-- **Registers are allotted greedily within the budget.** -/
theorem registers_greedy (g : ScalarGraph R) (scores : List (Option Nat)) (p : Parameters R)
    (hg : ∀ t ∈ g.targets, t < g.size) (hs : scores.length = g.size) :
    ∃ registers others, g.registers scores p = .ok registers ∧
      g.Candidates scores p others ∧ g.Allots others p registers := by
  have hcandidates := candidates_unmarked (p := p) hs
  refine ⟨_, _, ?_, hcandidates, allots_number hg fun a ha => ?_⟩
  -- both checks are passed: targets are nodes, and every node has a score
  · have hall : g.targets.all (· < g.size) = true := by
      rw [Array.all_eq_true']
      exact fun t ht => decide_eq_true (hg t ht)
    rw [registers, if_pos hall, if_pos hs.ge, ← hs, List.take_length,
      markBest_eq (pairwise_ranked scores)]
    rfl
  · have hscore := ((hcandidates.mem a.1 a.2).mp ha).1
    rw [← hs]
    exact (List.getElem?_eq_some_iff.mp hscore).1

/-- Six nodes, two of them targets and one of these for two components. -/
def sharedTarget : ScalarGraph ℚ where
  nodes := Array.replicate 6 { expr := .zero [], operands := [] }
  targets := #[3, 1, 3]

/-- Five registers at most, for scores above three. -/
def fiveRegisters : Parameters ℚ where
  rtol := 0
  atol := 0
  maxRegisters := 5
  scoreThreshold := 3
  expensiveMultiplier := 20

/-- Scores of the six nodes, where nodes tie and a target has a score below the threshold. -/
def tiedScores : List (Option Nat) :=
  [some 4, some 9, some 9, some 2, some 9, some 5]

/-- Of the nodes besides the targets, the first has the lowest score. -/
theorem registers_greedy_tied :
    (∀ t ∈ sharedTarget.targets, t < sharedTarget.size) ∧
    tiedScores.length = sharedTarget.size ∧
    sharedTarget.registers tiedScores fiveRegisters =
      .ok [none, some 0, some 1, some 2, some 3, some 4] ∧
    ∃ registers others, sharedTarget.registers tiedScores fiveRegisters = .ok registers ∧
      sharedTarget.Candidates tiedScores fiveRegisters others ∧
      sharedTarget.Allots others fiveRegisters registers :=
  have hg : ∀ t ∈ sharedTarget.targets, t < sharedTarget.size := by decide
  ⟨hg, by decide, by cbv, registers_greedy sharedTarget tiedScores fiveRegisters hg (by decide)⟩

end WeakForm.ScalarGraph
