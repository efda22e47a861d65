import WeakForm.Graph.Leaves
import WeakForm.Proofs.GraphTargets

/-!
# What passes note about nodes

The passes between the building of a graph and its factorization change what is noted about
the nodes, and keep the expressions, the operands and the targets.

* `ScalarGraph.Reannotates` — two graphs that differ in what is noted;
* `describeLeaves_reannotates`, `assignTables_reannotates` — the passes over leaves;
* `describeLeaves_wellFormed`, `describeLeaves_leaf` — with its descriptors noted a graph is
  still well formed, and every leaf has one;
* `describeLeaves_insertable` — every node can be inserted into a graph again.
-/

namespace WeakForm

variable {R : Type}

namespace ScalarGraph

open WeakForm.Expr

variable [DecidableEq R] {g g' : ScalarGraph R}

/-- The two graphs have the same nodes, up to what is noted about them. -/
structure Reannotates (g g' : ScalarGraph R) : Prop where
  nodes : List.Forall₂ (fun n n' : Node R => n'.expr = n.expr ∧ n'.operands = n.operands)
    g.nodes.toList g'.nodes.toList
  index : g'.index = g.index
  targets : g'.targets = g.targets

namespace Reannotates

theorem refl (g : ScalarGraph R) : g.Reannotates g :=
  ⟨List.forall₂_same.mpr fun _ _ => ⟨rfl, rfl⟩, rfl, rfl⟩

/-- Annotating twice is annotating once. -/
theorem trans {g'' : ScalarGraph R} (h : g.Reannotates g') (h' : g'.Reannotates g'') :
    g.Reannotates g'' where
  nodes := by
    rw [List.forall₂_iff_get]
    obtain ⟨hl, hn⟩ := List.forall₂_iff_get.mp h.nodes
    obtain ⟨hl', hn'⟩ := List.forall₂_iff_get.mp h'.nodes
    refine ⟨hl.trans hl', fun i hi hi' => ?_⟩
    obtain ⟨he, ho⟩ := hn i hi (by omega)
    obtain ⟨he', ho'⟩ := hn' i (by omega) hi'
    exact ⟨he'.trans he, ho'.trans ho⟩
  index := h'.index.trans h.index
  targets := h'.targets.trans h.targets

variable (h : g.Reannotates g')

include h

/-- Annotations add no node. -/
theorem size : g'.size = g.size := by
  have hl := h.nodes.length_eq
  rw [Array.length_toList, Array.length_toList] at hl
  exact hl.symm

/-- A node keeps its expression and operands. -/
theorem node {i : NodeId} {n : Node R} (hn : g.nodes[i]? = some n) :
    ∃ n', g'.nodes[i]? = some n' ∧ n'.expr = n.expr ∧ n'.operands = n.operands := by
  rw [← Array.getElem?_toList] at hn
  obtain ⟨n', hn', hsame⟩ := exists_right_of_getElem? h.nodes hn
  exact ⟨n', by rwa [← Array.getElem?_toList], hsame⟩

/-- A node of the annotated graph comes from one of the graph before. -/
theorem node_of {i : NodeId} {n' : Node R} (hn' : g'.nodes[i]? = some n') :
    ∃ n, g.nodes[i]? = some n ∧ n'.expr = n.expr ∧ n'.operands = n.operands := by
  rw [← Array.getElem?_toList] at hn'
  obtain ⟨n, hn, hsame⟩ := exists_right_of_getElem? h.nodes.flip hn'
  exact ⟨n, by rwa [← Array.getElem?_toList], hsame⟩

/-- Both graphs hold the same expressions. -/
theorem expr {i : NodeId} {e : Expr R} : g'.expr i = .ok e ↔ g.expr i = .ok e := by
  constructor
  · intro he
    obtain ⟨n', hn', rfl⟩ := expr_eq_ok.mp he
    obtain ⟨n, hn, hexpr, -⟩ := h.node_of hn'
    exact expr_eq_ok.mpr ⟨n, hn, hexpr.symm⟩
  · intro he
    obtain ⟨n, hn, rfl⟩ := expr_eq_ok.mp he
    obtain ⟨n', hn', hexpr, -⟩ := h.node hn
    exact expr_eq_ok.mpr ⟨n', hn', hexpr⟩

/-- What is well formed stays so if what is noted about a node is what its analysis gives. -/
theorem wellFormed (hg : g.WellFormed)
    (hnoted : ∀ (i : NodeId) (n : Node R), g'.nodes[i]? = some n → ∀ m, n.terminal = some m →
      n.expr.analyse = .ok (some m)) : g'.WellFormed where
  nodes i n' hn' := by
    obtain ⟨n, hn, hexpr, hoperands⟩ := h.node_of hn'
    have hformed := hg.nodes i n hn
    refine ⟨hexpr ▸ hformed.scalar, ?_, ?_, hnoted i n' hn'⟩
    · -- operands have the expressions they had
      rw [hexpr, hoperands]
      exact hformed.operands.imp fun j a hj => ⟨hj.1, h.expr.mpr hj.2⟩
    · rw [hexpr, hoperands]
      exact hformed.terminal
  -- the index is the same, so it finds the same expressions
  index e i := by
    rw [lookup, h.index, h.expr]
    exact hg.index e i
  targets t ht := by
    rw [h.size]
    rw [h.targets] at ht
    exact hg.targets t ht

end Reannotates

/-- Graphs with the same index and targets, and with the same nodes one by one. -/
theorem reannotates_of_nodes (hsize : g'.size = g.size) (hindex : g'.index = g.index)
    (htargets : g'.targets = g.targets)
    (h : ∀ (i : NodeId) (n' : Node R), g'.nodes[i]? = some n' →
      ∃ n, g.nodes[i]? = some n ∧ n'.expr = n.expr ∧ n'.operands = n.operands) :
    g.Reannotates g' := by
  refine ⟨List.forall₂_iff_get.mpr ⟨?_, fun i hi hi' => ?_⟩, hindex, htargets⟩
  · rw [Array.length_toList, Array.length_toList]
    exact hsize.symm
  · rw [Array.length_toList] at hi'
    obtain ⟨n, hn, hsame⟩ := h i _ (Array.getElem?_eq_getElem hi')
    obtain ⟨_, rfl⟩ := Array.getElem?_eq_some_iff.mp hn
    exact hsame

/-- What is noted about a node changes that node only. -/
theorem annotate_node {i j : NodeId} {f : Node R → Node R} {n' : Node R}
    (h : g.annotate i f = .ok g') (hn' : g'.nodes[j]? = some n') :
    ∃ n, g.nodes[j]? = some n ∧ (n' = n ∨ n' = f n) := by
  unfold annotate at h
  split at h
  · cases h
    rw [Array.getElem?_modify] at hn'
    split at hn'
    -- the node is the changed one, or another
    · obtain ⟨n, hn, rfl⟩ := Option.map_eq_some_iff.mp hn'
      exact ⟨n, hn, .inr rfl⟩
    · exact ⟨n', hn', .inl rfl⟩
  · cases h

/-- Changing what is noted at one node, but neither its expression nor its operands, annotates the
graph. -/
theorem reannotates_annotate {i : NodeId} {f : Node R → Node R}
    (hf : ∀ n, (f n).expr = n.expr ∧ (f n).operands = n.operands) (h : g.annotate i f = .ok g') :
    g.Reannotates g' := by
  have hnodes : ∀ (j : NodeId) (n' : Node R), g'.nodes[j]? = some n' →
      ∃ n, g.nodes[j]? = some n ∧ n'.expr = n.expr ∧ n'.operands = n.operands := by
    intro j n' hn'
    obtain ⟨n, hn, rfl | rfl⟩ := annotate_node h hn'
    · exact ⟨_, hn, rfl, rfl⟩
    · exact ⟨n, hn, hf n⟩
  unfold annotate at h
  split at h
  · cases h
    exact reannotates_of_nodes Array.size_modify rfl rfl hnodes
  · cases h

/-! ## Descriptors -/

omit [DecidableEq R] in
/-- A leaf has its descriptor noted; no other node changes. -/
theorem describeLeaf_spec {n n' : Node R} (h : describeLeaf n = .ok n') :
    (n.isLeaf = false ∧ n' = n) ∨
      (n.isLeaf ∧ ∃ m, n.expr.analyse = .ok (some m) ∧ n' = { n with terminal := some m }) := by
  unfold describeLeaf at h
  by_cases hn : n.isLeaf
  · -- a leaf must be one that can be analysed
    simp only [hn, Bool.not_true, Bool.false_eq_true, if_false] at h
    obtain ⟨found, hfound, h⟩ := bind_eq_ok.mp h
    cases found with
    | none => cases h
    | some m =>
      cases h
      exact .inr ⟨hn, m, hfound, rfl⟩
  · -- other nodes stay as they are
    simp only [hn, Bool.not_false, if_true] at h
    cases h
    exact .inl ⟨by simpa using hn, rfl⟩

omit [DecidableEq R] in
/-- Describing a leaf leaves its table as it is. -/
theorem describeLeaf_table {n n' : Node R} (h : describeLeaf n = .ok n') : n'.table = n.table := by
  rcases describeLeaf_spec h with ⟨-, rfl⟩ | ⟨-, m, -, rfl⟩
  · rfl
  · rfl

/-- Node by node, the graph with descriptors noted comes from the graph. -/
theorem describeLeaves_nodes (h : g.describeLeaves = .ok g') :
    List.Forall₂ (fun n n' => describeLeaf n = .ok n') g.nodes.toList g'.nodes.toList ∧
      g'.index = g.index ∧ g'.targets = g.targets := by
  obtain ⟨nodes, hnodes, h⟩ := bind_eq_ok.mp h
  cases h
  rw [Array.mapM_eq_mapM_toList] at hnodes
  obtain ⟨list, hlist, rfl⟩ := map_eq_ok.mp hnodes
  exact ⟨mapM_eq_ok.mp hlist, rfl, rfl⟩

/-- Describing the leaves annotates the graph. -/
theorem describeLeaves_reannotates (h : g.describeLeaves = .ok g') : g.Reannotates g' := by
  obtain ⟨hnodes, hindex, htargets⟩ := describeLeaves_nodes h
  refine ⟨hnodes.imp fun n n' hn => ?_, hindex, htargets⟩
  rcases describeLeaf_spec hn with ⟨-, rfl⟩ | ⟨-, m, -, rfl⟩
  · exact ⟨rfl, rfl⟩
  · exact ⟨rfl, rfl⟩

/-- A node of the graph with descriptors noted comes from one of the graph. -/
theorem describeLeaves_node (h : g.describeLeaves = .ok g') {i : NodeId} {n' : Node R}
    (hn' : g'.nodes[i]? = some n') : ∃ n, g.nodes[i]? = some n ∧ describeLeaf n = .ok n' := by
  obtain ⟨hnodes, -⟩ := describeLeaves_nodes h
  rw [← Array.getElem?_toList] at hn'
  obtain ⟨n, hn, hd⟩ := exists_right_of_getElem? hnodes.flip hn'
  exact ⟨n, by rwa [← Array.getElem?_toList], hd⟩

/-- Every leaf has its descriptor noted. -/
theorem describeLeaves_leaf (h : g.describeLeaves = .ok g') {i : NodeId} {n' : Node R}
    (hn' : g'.nodes[i]? = some n') (hleaf : n'.isLeaf) :
    ∃ m, n'.terminal = some m ∧ n'.expr.analyse = .ok (some m) := by
  obtain ⟨n, -, hd⟩ := describeLeaves_node h hn'
  rcases describeLeaf_spec hd with ⟨hn, rfl⟩ | ⟨-, m, hm, rfl⟩
  · rw [hn] at hleaf
    cases hleaf
  · exact ⟨m, rfl, hm⟩

/-- The graph stays well formed: what is noted at a leaf is its own descriptor. -/
theorem describeLeaves_wellFormed (hg : g.WellFormed) (h : g.describeLeaves = .ok g') :
    g'.WellFormed := by
  refine (describeLeaves_reannotates h).wellFormed hg fun i n' hn' m hm => ?_
  obtain ⟨n, hn, hd⟩ := describeLeaves_node h hn'
  rcases describeLeaf_spec hd with ⟨-, rfl⟩ | ⟨-, m', hm', rfl⟩
  · exact (hg.nodes i n' hn).noted m hm
  · cases hm
    exact hm'

/-- Once the leaves have descriptors, every node can be inserted into a graph. -/
theorem describeLeaves_insertable (hg : g.WellFormed) (h : g.describeLeaves = .ok g') :
    g'.Holds Insertable := by
  have hg' := describeLeaves_wellFormed hg h
  intro i
  -- the operands of a node stand before it
  induction i using Nat.strongRecOn with
  | ind i ih =>
    intro e he
    obtain ⟨n, hn, rfl⟩ := expr_eq_ok.mp he
    have hformed := hg'.nodes i n hn
    by_cases hleaf : n.isLeaf
    · obtain ⟨m, -, hm⟩ := describeLeaves_leaf h hn hleaf
      exact .terminal (hformed.terminal (List.isEmpty_iff.mp hleaf)) hm
    · have hoperand : ∀ a ∈ operandsOf n.expr, Insertable a := fun a ha => by
        obtain ⟨j, -, hj, ha⟩ := exists_left_of_mem hformed.operands ha
        exact ih j hj a ha
      have hne : operandsOf n.expr ≠ [] := fun hnil => by
        have hlen := hformed.operands.length_eq
        rw [hnil] at hlen
        exact hleaf (List.isEmpty_iff.mpr (List.eq_nil_of_length_eq_zero hlen))
      cases hexpr : n.expr with
      | leaf | listTensor => exact absurd (by rw [hexpr]; rfl) hne
      -- a node with operands is an operator that a graph holds
      | unary op a =>
        rw [hexpr] at hoperand hne
        cases op with
        | math f => exact .unary rfl (hoperand a (List.mem_singleton.mpr rfl))
        | abs => exact .unary rfl (hoperand a (List.mem_singleton.mpr rfl))
        | indexSum | indexed | componentTensor | restricted | grad | referenceGrad
          | spatialDerivative | averaged | labelled => exact absurd rfl hne
      | binary op a b =>
        rw [hexpr] at hoperand
        have ha := hoperand a List.mem_cons_self
        have hb := hoperand b (List.mem_cons_of_mem _ List.mem_cons_self)
        exact .binary ha hb

omit [DecidableEq R] in
/-- What can be inserted and has no operands is a terminal with a descriptor. -/
theorem exists_descriptor {e : Expr R} (h : Insertable e) (hop : operandsOf e = []) :
    ∃ m, e.analyse = .ok (some m) := by
  cases h with
  | terminal ht hd => exact ⟨_, hd⟩
  | unary ho =>
    rw [ho] at hop
    cases hop
  | binary => cases hop

/-- A leaf of a graph has an expression without operands. -/
theorem NodeFormed.operandsOf_leaf {i : NodeId} {n : Node R} (h : g.NodeFormed i n)
    (hleaf : n.isLeaf) : operandsOf n.expr = [] := by
  have hlen := h.operands.length_eq
  rw [List.isEmpty_iff.mp hleaf] at hlen
  exact List.eq_nil_of_length_eq_zero hlen.symm

/-- A leaf that can be inserted can be described. -/
theorem exists_describeLeaf {i : NodeId} {n : Node R} (hn : g.NodeFormed i n)
    (hi : Insertable n.expr) : ∃ n', describeLeaf n = .ok n' := by
  by_cases hleaf : n.isLeaf
  · obtain ⟨m, hm⟩ := exists_descriptor hi (hn.operandsOf_leaf hleaf)
    refine ⟨{ n with terminal := some m }, ?_⟩
    simp only [describeLeaf, hleaf, hm]
    rfl
  · refine ⟨n, ?_⟩
    simp only [describeLeaf, hleaf]
    rfl

/-- What can be inserted into a graph can be described. -/
theorem exists_describeLeaves (hg : g.WellFormed) (hi : g.Holds Insertable) :
    ∃ g', g.describeLeaves = .ok g' := by
  -- every leaf can be described
  have hnodes : ∀ n ∈ g.nodes.toList, ∃ n', describeLeaf n = .ok n' ∧ True := by
    intro n hmem
    obtain ⟨i, hn⟩ := Array.mem_iff_getElem?.mp (Array.mem_toList_iff.mp hmem)
    obtain ⟨n', hn'⟩ :=
      exists_describeLeaf (hg.nodes i n hn) (hi i n.expr (expr_eq_ok.mpr ⟨n, hn, rfl⟩))
    exact ⟨n', hn', trivial⟩
  obtain ⟨nodes', hnodes', -⟩ := exists_mapM (List.forall₂_same.mpr hnodes)
  refine ⟨{ g with nodes := nodes'.toArray }, bind_eq_ok.mpr ⟨nodes'.toArray, ?_, rfl⟩⟩
  rw [Array.mapM_eq_mapM_toList]
  exact map_eq_ok.mpr ⟨nodes', hnodes', rfl⟩

/-! ## Tables -/

/-- Filling in a table changes neither the expression nor the operands. -/
theorem assignTable_same (tables : OptimizedTables R) (n : Node R) :
    (assignTable tables n).expr = n.expr ∧ (assignTable tables n).operands = n.operands := by
  unfold assignTable
  split
  · exact ⟨rfl, rfl⟩
  · exact ⟨rfl, rfl⟩

/-- Nor does it change what is noted about the leaf. -/
theorem assignTable_terminal (tables : OptimizedTables R) (n : Node R) :
    (assignTable tables n).terminal = n.terminal := by
  unfold assignTable
  split
  · rfl
  · rfl

/-- A table that is noted about a node is that of its terminal, or was noted before. -/
theorem tableOf_of_assignTable {tables : OptimizedTables R} {n : Node R} {t : TableReference}
    (h : (assignTable tables n).table = some t) : tableOf tables n = some t ∨ n.table = some t := by
  unfold assignTable at h
  split at h
  · next t' hreference => exact .inl (hreference.trans h)
  · exact .inr h

/-- Filling in all tables annotates the graph. -/
theorem assignTables_reannotates (g : ScalarGraph R) (tables : OptimizedTables R) :
    g.Reannotates (g.assignTables tables) where
  nodes := by
    rw [assignTables, Array.toList_map, List.forall₂_map_right_iff]
    exact List.forall₂_same.mpr fun n _ => assignTable_same tables n
  index := rfl
  targets := rfl

/-- A graph stays well formed when its tables are noted. -/
theorem assignTables_wellFormed (hg : g.WellFormed) (tables : OptimizedTables R) :
    (g.assignTables tables).WellFormed := by
  refine (assignTables_reannotates g tables).wellFormed hg fun i n hn m hm => ?_
  rw [assignTables, Array.getElem?_map] at hn
  obtain ⟨n', hn', rfl⟩ := Option.map_eq_some_iff.mp hn
  rw [assignTable_terminal] at hm
  rw [(assignTable_same tables n').1]
  exact (hg.nodes i n' hn').noted m hm

end ScalarGraph

end WeakForm
