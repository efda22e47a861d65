import Mathlib.Data.List.Nodup
import WeakForm.Factorization
import WeakForm.Proofs.Insertion
import WeakForm.Proofs.Outcome
import WeakForm.Proofs.Peeling

/-!
# The argument vector of a graph

The arguments of a form are the leaves of its graph that are arguments, each descriptor
once. They are the first nodes of the graph of factors: an argument that is inserted is
never there already, because expressions with different descriptors differ.

* `leafTerminals_spec`, `mem_leafTerminals` — the leaves of a graph with their descriptors;
* `distinct_concat`, `distinct_spec` — descriptors in the argument vector differ;
* `argumentPosition?_spec` — the position of a leaf is that of its descriptor;
* `insertArguments_returns` — the position of an argument is its node.
-/

namespace WeakForm.ScalarGraph

open Building

variable {R : Type} [DecidableEq R]

/-! ## Leaves -/

/-- A descriptor that the analysis gives an expression, with the expression. -/
def Describes (m : ModifiedTerminal R) (e : Expr R) : Prop :=
  e.analyse = .ok (some m)

omit [DecidableEq R] in
theorem Describes.expr {m : ModifiedTerminal R} {e : Expr R} (h : Describes m e) : m.expr = e := by
  obtain ⟨-, _, -, -, -, hm⟩ := Expr.analyse_eq_some.mp h
  rw [hm]

/-- A leaf and its descriptor. -/
def IsLeaf (g : ScalarGraph R) (i : NodeId) (m : ModifiedTerminal R) : Prop :=
  ∃ n, g.nodes[i]? = some n ∧ n.isLeaf ∧ Describes m n.expr

/-- What is read off a leaf describes it. -/
theorem leafTerminal_describes {g : ScalarGraph R} (hg : g.WellFormed) {i : NodeId} {n : Node R}
    (hn : g.nodes[i]? = some n) {m : ModifiedTerminal R} (h : leafTerminal n = .ok m) :
    Describes m n.expr := by
  unfold leafTerminal at h
  split at h
  · -- the descriptor was noted before
    next m' hnoted =>
    cases h
    exact (hg.nodes i n hn).noted m hnoted
  -- it is computed now
  · obtain ⟨found, ha, hr⟩ := bind_eq_ok.mp h
    cases found with
    | none => cases hr
    | some m' =>
      cases hr
      exact ha

/-- Every listed leaf is one of the graph, with its own descriptor. -/
theorem leafTerminals_spec {g : ScalarGraph R} (hg : g.WellFormed)
    {leaves : List (NodeId × ModifiedTerminal R)} (h : g.leafTerminals = .ok leaves) :
    ∀ leaf ∈ leaves, g.IsLeaf leaf.1 leaf.2 := by
  intro leaf hleaf
  obtain ⟨⟨n, i⟩, hmem, hf⟩ := mem_of_mapM h hleaf
  obtain ⟨hmem, hn⟩ := List.mem_filter.mp hmem
  have hi : g.nodes[i]? = some n := by
    rw [List.mk_mem_zipIdx_iff_getElem?] at hmem
    rwa [← Array.getElem?_toList]
  obtain ⟨m, hm, hr⟩ := bind_eq_ok.mp hf
  cases hr
  exact ⟨n, hi, hn, leafTerminal_describes hg hi hm⟩

/-- Every leaf is listed. -/
theorem mem_leafTerminals {g : ScalarGraph R} (hg : g.WellFormed)
    {leaves : List (NodeId × ModifiedTerminal R)} (h : g.leafTerminals = .ok leaves) {i : NodeId}
    {m : ModifiedTerminal R} (hi : g.IsLeaf i m) : (i, m) ∈ leaves := by
  obtain ⟨n, hn, hleaf, hd⟩ := hi
  -- the node stands among the leaves of the graph
  have hmem : (n, i) ∈ g.nodes.toList.zipIdx.filter (·.1.isLeaf) := by
    refine List.mem_filter.mpr ⟨?_, hleaf⟩
    rw [List.mk_mem_zipIdx_iff_getElem?, Array.getElem?_toList]
    exact hn
  obtain ⟨k, hk⟩ := List.mem_iff_getElem?.mp hmem
  obtain ⟨leaf, hk, hf⟩ := getElem?_of_mapM h hk
  obtain ⟨m', hm, hr⟩ := bind_eq_ok.mp hf
  cases hr
  -- an expression has one descriptor
  have hd' : Describes m' n.expr := leafTerminal_describes hg hn hm
  rw [Describes, hd] at hd'
  cases hd'
  exact List.mem_of_getElem? hk

omit [DecidableEq R] in
theorem mem_sortArguments {leaves : List (NodeId × ModifiedTerminal R)}
    {leaf : NodeId × ModifiedTerminal R} : leaf ∈ sortArguments leaves ↔ leaf ∈ leaves :=
  List.mem_mergeSort

/-- What is sorted are the leaves that are arguments. -/
theorem mem_argumentLeaves {g : ScalarGraph R} (hg : g.WellFormed)
    {found : List (NodeId × ModifiedTerminal R)} (h : g.leafTerminals = .ok found) {i : NodeId}
    {m : ModifiedTerminal R} :
    (i, m) ∈ sortArguments (found.filter (·.2.isArgument)) ↔ g.IsLeaf i m ∧ m.isArgument := by
  rw [mem_sortArguments, List.mem_filter]
  exact and_congr_left fun _ => ⟨leafTerminals_spec hg h (i, m), mem_leafTerminals hg h⟩

/-! ## Distinct descriptors -/

/-- One more terminal is kept if its descriptor is new. -/
theorem distinct_concat (terminals : List (ModifiedTerminal R)) (m : ModifiedTerminal R) :
    distinct (terminals ++ [m]) =
      if (distinct terminals).any (·.toDescriptor = m.toDescriptor) then distinct terminals
      else distinct terminals ++ [m] := by
  simp only [distinct, List.foldl_concat, List.any_reverse]
  split
  · rfl
  · rw [List.reverse_cons]

/-- What is kept are terminals of the list with descriptors that differ. -/
theorem distinct_spec (terminals : List (ModifiedTerminal R)) :
    ((distinct terminals).map (·.toDescriptor)).Nodup ∧
      ∀ m ∈ distinct terminals, m ∈ terminals := by
  induction terminals using List.reverseRecOn with
  | nil => simp [distinct]
  | append_singleton terminals m ih =>
    obtain ⟨hnodup, hmem⟩ := ih
    rw [distinct_concat]
    split
    · exact ⟨hnodup, fun m' hm => List.mem_append_left _ (hmem m' hm)⟩
    -- a terminal is kept only if no kept one has its descriptor
    · next hnew =>
      refine ⟨?_, fun m' hm => ?_⟩
      · rw [List.map_append, List.map_singleton, ← List.concat_eq_append]
        refine hnodup.concat fun hd => ?_
        obtain ⟨m', hm, heq⟩ := List.mem_map.mp hd
        exact hnew (List.any_eq_true.mpr ⟨m', hm, decide_eq_true heq⟩)
      · rcases List.mem_append.mp hm with hm | hm
        · exact List.mem_append_left _ (hmem m' hm)
        · exact List.mem_append_right _ hm

/-- The arguments among the leaves, each descriptor once, are leaves that are arguments. -/
theorem isLeaf_of_mem_distinct {g : ScalarGraph R} (hg : g.WellFormed)
    {found : List (NodeId × ModifiedTerminal R)} (hfound : g.leafTerminals = .ok found)
    {m : ModifiedTerminal R}
    (hm : m ∈ distinct ((sortArguments (found.filter (·.2.isArgument))).map (·.2))) :
    m.isArgument ∧ ∃ i, g.IsLeaf i m := by
  obtain ⟨l, hl, rfl⟩ := List.mem_map.mp ((distinct_spec _).2 m hm)
  obtain ⟨hleaf, harg⟩ := (mem_argumentLeaves hg hfound).mp hl
  exact ⟨harg, l.1, hleaf⟩

/-- The position of an argument holds one with its descriptor. -/
theorem argumentPosition?_spec {arguments : List (ModifiedTerminal R)} {m : ModifiedTerminal R}
    {p : Nat} (h : argumentPosition? arguments m = some p) :
    ∃ a, arguments[p]? = some a ∧ a.toDescriptor = m.toDescriptor := by
  obtain ⟨hp, hd, -⟩ := List.findIdx?_eq_some_iff_getElem.mp h
  exact ⟨arguments[p], List.getElem?_eq_getElem hp, by simpa using hd⟩

/-- What is found in a table made from a list is in the list. -/
theorem mem_of_getElem?_ofList {α β : Type} [BEq α] [Hashable α] [LawfulBEq α]
    {entries : List (α × β)} {a : α} {b : β}
    (h : (Std.HashMap.ofList entries)[a]? = some b) : (a, b) ∈ entries := by
  -- generalized to a map with entries
  suffices H : ∀ (entries : List (α × β)) (m : Std.HashMap α β),
      (m.insertMany entries)[a]? = some b → m[a]? = some b ∨ (a, b) ∈ entries by
    rw [Std.HashMap.ofList_eq_insertMany_empty] at h
    rcases H entries ∅ h with h | h
    · simp at h
    · exact h
  intro entries
  induction entries with
  | nil =>
    intro m h
    exact .inl (by simpa using h)
  | cons entry entries ih =>
    intro m h
    rw [Std.HashMap.insertMany_cons] at h
    rcases ih _ h with hm | he
    · rw [Std.HashMap.getElem?_insert] at hm
      split at hm
      · next heq =>
        rw [← eq_of_beq heq, ← Option.some.inj hm]
        exact .inr List.mem_cons_self
      · exact .inl hm
    · exact .inr (List.mem_cons_of_mem _ he)

/-! ## Insertion of the argument vector -/

/-- Arguments of a graph: scalar modified terminals, each with the descriptor of its
expression, and descriptors that differ. -/
structure Arguments (arguments : List (ModifiedTerminal R)) : Prop where
  describes : ∀ m ∈ arguments, Describes m m.expr
  terminal : ∀ m ∈ arguments, m.expr.isModifiedTerminal
  nodup : (arguments.map (·.toDescriptor)).Nodup

omit [DecidableEq R] in
/-- Arguments at different positions have different expressions. -/
theorem Arguments.expr_inj {arguments : List (ModifiedTerminal R)} (ha : Arguments arguments)
    {p q : Nat} {m m' : ModifiedTerminal R} (hp : arguments[p]? = some m)
    (hq : arguments[q]? = some m') (h : m.expr = m'.expr) : p = q := by
  have hm := ha.describes m (List.mem_of_getElem? hp)
  have hm' := ha.describes m' (List.mem_of_getElem? hq)
  rw [Describes, h, hm'] at hm
  cases hm
  have hp' : (arguments.map (·.toDescriptor))[p]? = some m.toDescriptor := by simp [hp]
  have hq' : (arguments.map (·.toDescriptor))[q]? = some m.toDescriptor := by simp [hq]
  obtain ⟨hlt, -⟩ := List.getElem?_eq_some_iff.mp hp'
  exact (List.getElem?_inj hlt ha.nodup).mp (hp'.trans hq'.symm)

/-- Inserted into the empty graph, arguments become the nodes of their positions. -/
theorem insertArguments_returns {arguments : List (ModifiedTerminal R)} (ha : Arguments arguments)
    {g' : ScalarGraph R} {u : PUnit}
    (h : Returns
      (arguments.foldlM (fun _ m => do let _ ← insert m.expr; pure PUnit.unit) PUnit.unit)
      {} u g') :
    g'.WellFormed ∧ g'.size = arguments.length ∧
      ∀ (p : Nat) (m : ModifiedTerminal R), arguments[p]? = some m → g'.expr p = .ok m.expr := by
  refine foldlM_induct
    (P := fun done _ g => g.WellFormed ∧ g.size = done.length ∧
      ∀ (p : Nat) (m : ModifiedTerminal R), done[p]? = some m → g.expr p = .ok m.expr) h
    ⟨wellFormed_empty, rfl, by simp⟩ ?_
  intro done m _ _ g₁ g₂ hpre hP hr
  obtain ⟨hg₁, hsize, hexpr⟩ := hP
  simp only [returns_bind, returns_pure] at hr
  obtain ⟨i, _, hi, -, rfl⟩ := hr
  have hm : arguments[done.length]? = some m := by
    obtain ⟨rest, rfl⟩ := hpre
    simp
  -- a node that held the expression would be an argument before it
  have hnew : g₁.lookup m.expr = none := by
    cases hl : g₁.lookup m.expr with
    | none => rfl
    | some j =>
      have hj := (hg₁.index m.expr j).mp hl
      have hlt : j < done.length := hsize ▸ lt_size_of_expr hj
      have hdone := hexpr j done[j] (List.getElem?_eq_getElem hlt)
      rw [hdone] at hj
      have hj' : arguments[j]? = some done[j] := by
        obtain ⟨rest, rfl⟩ := hpre
        rw [List.append_assoc, List.getElem?_append_left hlt, List.getElem?_eq_getElem hlt]
      exact absurd (ha.expr_inj hj' hm (Except.ok.inj hj)) (Nat.ne_of_lt hlt)
  have hins := insert_returns hg₁ hi
  obtain ⟨rfl, rfl⟩ := insert_terminal hi (ha.terminal m (List.mem_of_getElem? hm)) hnew
  -- the node of the new argument is the next one
  refine ⟨hins.wellFormed, ?_, fun p m' hp => ?_⟩
  · simp [push, size, ← hsize]
  · rcases Nat.lt_or_ge p done.length with hlt | hge
    · rw [List.getElem?_append_left hlt] at hp
      exact hins.grown.expr (hexpr p m' hp)
    · obtain ⟨hlt, hp⟩ := List.getElem?_eq_some_iff.mp hp
      have hp' : p = done.length := by simp at hlt; omega
      subst hp'
      rw [List.getElem_concat_length rfl] at hp
      rw [← hp, ← hsize]
      exact hins.expr

end WeakForm.ScalarGraph
