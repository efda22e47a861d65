import Mathlib.Data.Finset.Dedup
import Mathlib.Data.List.Induction
import WeakForm.Proofs.Typing
import WeakForm.Table.Numbering

/-!
# Ordinals of elements

Elements are numbered on walks that leave out what they came to before. What is left out can only
read elements that have their numbers, so the ordinals are those of the whole trees: an element
has as its ordinal the number of elements that occur before it does, where the terminals of the
trees are read from left to right, tree after tree.

* `Expr.nodes`, `Expr.terminals` — the tree that an expression stands for, without sharing;
* `Expr.visited_eq` — what the walk through an expression comes to, and in which order;
* `Numbers` — the ordinals are those of first occurrences in a list of elements;
* `Numbers.number` — what one number keeps of it, and `Numbers.walk` what a walk keeps;
* `ofExprs_numbers` — the ordinals of the elements of expressions;
* `ordinals_firstOccurrence` — ordinals are dense, and follow first occurrence.
-/

namespace WeakForm

variable {R : Type}

/-! ## The whole tree -/

namespace Expr

/-- The nodes of the tree that an expression stands for, from the root down and in the order of
operands, each as often as it occurs. -/
def nodes (e : Expr R) : List (Expr R) :=
  visits (fun _ => none) e

/-- The nodes that the walk through an expression comes to, in its order: those that a replacement
takes a note of, if it exchanges nothing. -/
def visited [Scalar R] [DecidableEq R] (e : Expr R) : List (Expr R) :=
  let walk : StateM (List (Expr R)) _ :=
    replaceNodesM (fun a => do modify (· ++ [a]); return none) e
  (walk.run []).2

/-- The terminals of the tree from left to right, each as often as it occurs. -/
def terminals : Expr R → List (Terminal R)
  | leaf t => [t]
  | unary _ a => a.terminals
  | binary _ a b => a.terminals ++ b.terminals
  | listTensor items => items.flatMap terminals

/-- The element that a node is read from by itself, and not through its operands. -/
def ownElement? : Expr R → Option ElementId
  | leaf t => t.basisElement?
  | unary _ _ | binary _ _ _ | listTensor _ => none

variable {a e : Expr R}

theorem nodes_eq (e : Expr R) : e.nodes = e :: e.operands.flatMap nodes :=
  visits_of_none rfl

/-- A node is a subexpression. -/
theorem mem_nodes : a ∈ e.nodes ↔ Subexpression a e := by
  constructor
  · intro h
    induction e using induct_operands with
    | h e ih =>
      rw [nodes_eq, List.mem_cons, List.mem_flatMap] at h
      obtain rfl | ⟨b, hb, h⟩ := h
      · exact .refl
      · exact .operand hb (ih b hb h)
  · intro h
    induction h with
    | refl => exact mem_visits_self _ _
    | operand hb _ ih =>
      rw [nodes_eq]
      exact List.mem_cons_of_mem _ (List.mem_flatMap.mpr ⟨_, hb, ih⟩)

/-- Noting nodes one after the other lists them. -/
theorem run_noteNodes (nodes seen : List (Expr R)) :
    (forM nodes fun a => modify (· ++ [a]) : StateM (List (Expr R)) PUnit).run seen =
      ((), seen ++ nodes) := by
  induction nodes generalizing seen with
  | nil =>
    rw [List.append_nil]
    rfl
  | cons a nodes ih =>
    rw [List.forM_cons, StateT.run_bind, List.append_cons]
    exact ih (seen ++ [a])

/-- **The walk comes to every node once**, in the order in which the tree first has the nodes. -/
theorem visited_eq [Scalar R] [DecidableEq R] (e : Expr R) : e.visited = e.nodes.eraseDups := by
  rw [visited, replaceNodesM_eq, StateT.run_bind, run_noteNodes, List.nil_append]
  rfl

/-- The elements of the nodes are those of the terminals, which are read in the same order. -/
theorem ownElements_nodes (e : Expr R) :
    e.nodes.filterMap ownElement? = e.terminals.filterMap Terminal.basisElement? := by
  induction e with
  | leaf t =>
    rw [nodes_eq, operands, List.flatMap_nil, terminals]
    rfl
  | unary op a ih =>
    rw [nodes_eq, List.filterMap_cons_none rfl, operands, List.flatMap_singleton, terminals, ih]
  | binary op a b iha ihb =>
    rw [nodes_eq, List.filterMap_cons_none rfl, operands, List.flatMap_cons, List.flatMap_singleton,
      terminals, List.filterMap_append, List.filterMap_append, iha, ihb]
  | listTensor items ih =>
    rw [nodes_eq, List.filterMap_cons_none rfl, operands, terminals, List.filterMap_flatMap,
      List.filterMap_flatMap]
    exact List.flatMap_congr ih

end Expr

open WeakForm.Expr

/-- The elements that expressions are read from, in the order of their terminals, each as often
as it occurs. -/
def occurrences (es : List (Expr R)) : List ElementId :=
  (es.flatMap terminals).filterMap Terminal.basisElement?

/-- The elements of several expressions occur one list after the other. -/
theorem occurrences_cons (e : Expr R) (es : List (Expr R)) :
    occurrences (e :: es) = e.nodes.filterMap ownElement? ++ occurrences es := by
  rw [occurrences, List.flatMap_cons, List.filterMap_append, ownElements_nodes, occurrences]

/-- The elements of a list whose first occurrence is earlier than that of another. -/
def earlier (xs : List ElementId) (x : ElementId) : Finset ElementId :=
  {y ∈ xs.toFinset | xs.idxOf y < xs.idxOf x}

section Earlier

variable {xs ys : List ElementId} {x y : ElementId}

/-- What comes after an element is not earlier. -/
theorem earlier_append (hx : x ∈ xs) : earlier (xs ++ ys) x = earlier xs x := by
  have hlt := List.idxOf_lt_length_iff.mpr hx
  -- membership decides which elements come before
  ext y
  rw [earlier, earlier, Finset.mem_filter, Finset.mem_filter, List.mem_toFinset, List.mem_toFinset,
    List.idxOf_append_of_mem hx, List.mem_append]
  by_cases hy : y ∈ xs
  · rw [List.idxOf_append_of_mem hy]
    simp [hy]
  · -- an element that is new comes after the whole list
    rw [List.idxOf_append_of_notMem hy]
    constructor
    · rintro ⟨-, h⟩
      omega
    · rintro ⟨h, -⟩
      exact absurd h hy

/-- All elements before are earlier than one that is new. -/
theorem earlier_new (hx : x ∉ xs) : earlier (xs ++ [x]) x = xs.toFinset := by
  ext y
  rw [earlier, Finset.mem_filter, List.mem_toFinset, List.mem_toFinset, List.mem_append,
    List.mem_singleton, List.idxOf_append_of_notMem hx]
  -- all elements of the list come before the new one
  constructor
  · rintro ⟨hy | rfl, h⟩
    · exact hy
    · rw [List.idxOf_append_of_notMem hx] at h
      omega
  · intro hy
    rw [List.idxOf_append_of_mem hy]
    have hlt := List.idxOf_lt_length_iff.mpr hy
    exact ⟨.inl hy, by omega⟩

/-- Of two elements, fewer are earlier than the one that occurs first. -/
theorem card_earlier_lt (hx : x ∈ xs) (h : xs.idxOf x < xs.idxOf y) :
    (earlier xs x).card < (earlier xs y).card := by
  refine Finset.card_lt_card ⟨fun z hz => ?_, fun hsub => ?_⟩
  · rw [earlier, Finset.mem_filter] at hz ⊢
    exact ⟨hz.1, by omega⟩
  · -- the element itself is earlier than the other, and not earlier than itself
    have hmem : x ∈ earlier xs y := Finset.mem_filter.mpr ⟨List.mem_toFinset.mpr hx, h⟩
    exact Nat.lt_irrefl _ (Finset.mem_filter.mp (hsub hmem)).2

/-- Elements with equally many before them are the same. -/
theorem card_earlier_inj (hx : x ∈ xs) (hy : y ∈ xs)
    (h : (earlier xs x).card = (earlier xs y).card) : x = y := by
  rcases Nat.lt_trichotomy (xs.idxOf x) (xs.idxOf y) with hlt | heq | hlt
  · have := card_earlier_lt hx hlt
    omega
  · exact (List.idxOf_inj hx).mp heq
  · have := card_earlier_lt hy hlt
    omega

theorem card_earlier_lt_card (hx : x ∈ xs) : (earlier xs x).card < xs.toFinset.card := by
  refine Finset.card_lt_card ⟨Finset.filter_subset _ _, fun hsub => ?_⟩
  exact Nat.lt_irrefl _ (Finset.mem_filter.mp (hsub (List.mem_toFinset.mpr hx))).2

/-- Every number below that of the elements is the number of those earlier than one of them. -/
theorem exists_card_earlier {k : Nat} (hk : k < xs.toFinset.card) :
    ∃ x ∈ xs, (earlier xs x).card = k := by
  -- these numbers are as many as the elements, and all of them are below
  have himage : xs.toFinset.image (fun x => (earlier xs x).card) =
      Finset.range xs.toFinset.card := by
    refine Finset.eq_of_subset_of_card_le (fun k hk => ?_) ?_
    · obtain ⟨x, hx, rfl⟩ := Finset.mem_image.mp hk
      exact Finset.mem_range.mpr (card_earlier_lt_card (List.mem_toFinset.mp hx))
    · rw [Finset.card_range, Finset.card_image_of_injOn]
      intro x hx y hy h
      exact card_earlier_inj (List.mem_toFinset.mp hx) (List.mem_toFinset.mp hy) h
  rw [← Finset.mem_range, ← himage] at hk
  obtain ⟨x, hx, h⟩ := Finset.mem_image.mp hk
  exact ⟨x, List.mem_toFinset.mp hx, h⟩

end Earlier

/-! ## Ordinals -/

namespace ElementNumbering

variable {n : ElementNumbering} {xs ys : List ElementId}

/-- The ordinals are those of the first occurrences in a list of elements. -/
structure Numbers (n : ElementNumbering) (xs : List ElementId) : Prop where
  ordinal : ∀ x, n.ordinal? x = if x ∈ xs then some (earlier xs x).card else none
  size : n.size = xs.toFinset.card

theorem numbers_empty : Numbers {} [] where
  ordinal x := by simp [ordinal?]
  size := by simp [ElementNumbering.size]

/-- An element without an ordinal has not occurred. -/
theorem Numbers.ordinal_eq_none (h : n.Numbers xs) {x : ElementId} :
    n.ordinal? x = none ↔ x ∉ xs := by
  rw [h.ordinal]
  split <;> simp_all

/-- An element has the ordinal that says how many stood before it. -/
theorem Numbers.ordinal_eq_some (h : n.Numbers xs) {x : ElementId} {k : Nat} :
    n.ordinal? x = some k ↔ x ∈ xs ∧ (earlier xs x).card = k := by
  rw [h.ordinal]
  split <;> simp_all

/-- Occurrences of elements that have occurred leave the ordinals as they are. -/
theorem Numbers.append_seen (h : n.Numbers xs) (hys : ∀ y ∈ ys, y ∈ xs) : n.Numbers (xs ++ ys) where
  ordinal x := by
    have hmem : x ∈ xs ++ ys ↔ x ∈ xs := by
      rw [List.mem_append]
      exact ⟨fun hx => hx.elim id (hys x), Or.inl⟩
    rw [h.ordinal]
    by_cases hx : x ∈ xs
    · rw [if_pos hx, if_pos (hmem.mpr hx), earlier_append hx]
    · rw [if_neg hx, if_neg (mt hmem.mp hx)]
  size := by
    rw [h.size, List.toFinset_append, Finset.union_eq_left.mpr]
    intro y hy
    exact List.mem_toFinset.mpr (hys y (List.mem_toFinset.mp hy))

/-- **One number more** is one occurrence more. -/
theorem Numbers.number (h : n.Numbers xs) (x : ElementId) : (n.number x).Numbers (xs ++ [x]) := by
  by_cases hx : x ∈ xs
  · -- the element has its number
    have hnumbered : n.ordinal? x ≠ none := fun hnone => h.ordinal_eq_none.mp hnone hx
    have hsame : (n.number x).Numbers xs := by
      constructor
      · intro y
        rw [ordinal?_number, if_neg fun hy => hnumbered hy.2, h.ordinal]
      · rw [size_number, if_neg hnumbered, h.size]
    exact hsame.append_seen (by simpa using hx)
  · have hnone := h.ordinal_eq_none.mpr hx
    constructor
    · intro y
      rw [ordinal?_number]
      by_cases hy : x = y
      · -- all elements that have numbers are earlier
        rw [← hy, if_pos ⟨rfl, hnone⟩, if_pos (by simp), earlier_new hx, h.size]
      · rw [if_neg fun hxy => hy hxy.1, h.ordinal]
        by_cases hys : y ∈ xs
        · rw [if_pos hys, if_pos (List.mem_append_left _ hys), earlier_append hys]
        · rw [if_neg hys, if_neg (by simp [hys, Ne.symm hy])]
    · have hinsert : (xs ++ [x]).toFinset = insert x xs.toFinset := by
        ext y
        simp
      rw [size_number, if_pos hnone, hinsert,
        Finset.card_insert_of_notMem (mt List.mem_toFinset.mp hx), h.size]

/-! ### Walks that give numbers -/

/-- Number the elements of a list, one after the other. -/
def numberAll (n : ElementNumbering) (xs : List ElementId) : ElementNumbering :=
  xs.foldl number n

theorem numberAll_append (n : ElementNumbering) (xs ys : List ElementId) :
    n.numberAll (xs ++ ys) = (n.numberAll xs).numberAll ys :=
  List.foldl_append

/-- **A walk that leaves out repetitions** gives the numbers of the walk that does not: what is
left out reads elements that have occurred. -/
theorem Numbers.walk [DecidableEq R] (h : n.Numbers xs) (nodes : List (Expr R)) :
    (n.numberAll (nodes.eraseDups.filterMap ownElement?)).Numbers
      (xs ++ nodes.filterMap ownElement?) := by
  -- from the end, so that what the walk has come to is what the induction speaks of
  induction nodes using List.reverseRecOn with
  | nil => simpa [numberAll] using h
  | append_singleton nodes a ih =>
    -- the walk over all nodes ends with the last one
    rw [List.eraseDups_append, List.filterMap_append, List.filterMap_append, ← List.append_assoc,
      numberAll_append]
    by_cases ha : a ∈ nodes
    · -- the walk comes to the node again
      have hskip : [a].removeAll nodes = [] := by simp [List.removeAll, ha]
      rw [hskip, List.eraseDups_nil]
      refine ih.append_seen fun y hy => ?_
      obtain ⟨b, hb, hby⟩ := List.mem_filterMap.mp hy
      rw [List.mem_singleton.mp hb] at hby
      exact List.mem_append_right _ (List.mem_filterMap.mpr ⟨a, ha, hby⟩)
    · have hnew : ([a].removeAll nodes).eraseDups = [a] := by
        simp [List.removeAll, ha, List.eraseDups_cons]
      rw [hnew]
      cases hown : ownElement? a with
      | none =>
        rw [List.filterMap_cons_none hown, List.filterMap_nil, List.append_nil]
        exact ih
      | some x =>
        rw [List.filterMap_cons_some hown, List.filterMap_nil]
        exact ih.number x

/-- Number the element that a node is read from. -/
def numberNode (a : Expr R) : StateM ElementNumbering PUnit :=
  forM (ownElement? a).toList fun x => modify (·.number x)

/-- Numbering the nodes one after the other numbers their elements. -/
theorem run_numberNodes (nodes : List (Expr R)) (n : ElementNumbering) :
    (forM nodes numberNode).run n = ((), n.numberAll (nodes.filterMap ownElement?)) := by
  induction nodes generalizing n with
  | nil => rfl
  | cons a nodes ih =>
    rw [List.forM_cons, StateT.run_bind]
    cases hown : ownElement? a with
    | none =>
      have hrun : (numberNode a).run n = ((), n) := by
        rw [numberNode, hown]
        rfl
      rw [hrun, List.filterMap_cons_none hown]
      exact ih n
    | some x =>
      have hrun : (numberNode a).run n = ((), n.number x) := by
        rw [numberNode, hown]
        rfl
      rw [hrun, List.filterMap_cons_some hown]
      exact ih (n.number x)

section Run

variable [Scalar R] [DecidableEq R]

/-- The walk through an expression numbers the nodes that it comes to, and gives the expression
back. -/
theorem run_numberTerminals (e : Expr R) (n : ElementNumbering) :
    (replaceTerminalsM numberTerminal e).run n =
      (.ok e, n.numberAll (e.visited.filterMap ownElement?)) := by
  have hwalk : replaceTerminalsM numberTerminal e =
      replaceNodesM (fun a => do numberNode a; return none) e := by
    rw [replaceTerminalsM]
    congr 1
    funext a
    cases a with
    | leaf t =>
      show numberTerminal t = _
      rw [numberTerminal, numberNode, ownElement?]
      cases t.basisElement? <;> rfl
    | unary | binary | listTensor => rfl
  have hsame : replace (fun _ => none) e = .ok e :=
    replace_eq_self (P := fun _ => True) (fun _ _ _ _ => trivial) (fun _ _ => rfl) trivial
  -- nothing is replaced, so the pass only numbers
  rw [hwalk, replaceNodesM_eq, hsame, StateT.run_bind, ← nodes, ← visited_eq, run_numberNodes]
  rfl

/-- All expressions of a form are numbered in turn. -/
theorem run_numberExprs (es : List (Expr R)) (n : ElementNumbering) :
    (numberExprs es).run n = ((), n.numberAll ((es.flatMap visited).filterMap ownElement?)) := by
  induction es generalizing n with
  | nil => rfl
  | cons e es ih =>
    have hrun : (discard (replaceTerminalsM numberTerminal e)).run n =
        ((), n.numberAll (e.visited.filterMap ownElement?)) := by
      -- what the walk gives back is not used
      show ((), ((replaceTerminalsM numberTerminal e).run n).2) = _
      rw [run_numberTerminals]
    rw [numberExprs, List.forM_cons, StateT.run_bind, hrun, List.flatMap_cons,
      List.filterMap_append, numberAll_append]
    exact ih _

/-- **What the walks through expressions keep**: with the numbers of what they come to, ordinals
are those of the elements as the whole trees have them. -/
theorem Numbers.run (h : n.Numbers xs) (es : List (Expr R)) :
    (n.numberAll ((es.flatMap visited).filterMap ownElement?)).Numbers (xs ++ occurrences es) := by
  induction es generalizing n xs with
  | nil =>
    show n.Numbers (xs ++ [])
    rwa [List.append_nil]
  | cons e es ih =>
    rw [List.flatMap_cons, List.filterMap_append, numberAll_append, occurrences_cons,
      ← List.append_assoc, visited_eq]
    exact ih (h.walk e.nodes)

theorem ofExprs_eq (es : List (Expr R)) :
    ofExprs es = numberAll {} ((es.flatMap visited).filterMap ownElement?) := by
  rw [ofExprs, run_numberExprs]

theorem ofExprs_numbers (es : List (Expr R)) : (ofExprs es).Numbers (occurrences es) := by
  rw [ofExprs_eq]
  exact numbers_empty.run es

end Run

/-! ## Ordinals without gaps -/

/-- The ordinals are 0, 1, 2 and so on without gaps, each of one element. -/
structure Gapless (n : ElementNumbering) : Prop where
  exists_iff : ∀ k, (∃ x, n.ordinal? x = some k) ↔ k < n.size
  injective : ∀ x y k, n.ordinal? x = some k → n.ordinal? y = some k → x = y

/-- The ordinals are gapless: they count up from zero. -/
theorem Numbers.gapless (h : n.Numbers xs) : n.Gapless where
  exists_iff k := by
    rw [h.size]
    constructor
    · rintro ⟨x, hx⟩
      obtain ⟨hmem, rfl⟩ := h.ordinal_eq_some.mp hx
      exact card_earlier_lt_card hmem
    · intro hk
      -- the element with that many before it
      obtain ⟨x, hmem, hx⟩ := exists_card_earlier hk
      exact ⟨x, h.ordinal_eq_some.mpr ⟨hmem, hx⟩⟩
  injective x y k hx hy := by
    obtain ⟨hmemx, hcard⟩ := h.ordinal_eq_some.mp hx
    obtain ⟨hmemy, rfl⟩ := h.ordinal_eq_some.mp hy
    exact card_earlier_inj hmemx hmemy hcard

/-- **Ordinals follow first occurrence.** The walk through an expression comes to each of its
subexpressions once. It numbers what it comes to, and gives the expression back. The ordinals run
from 0 without gaps all the same, and that of an element is the number of elements which occur
earlier than it in the whole trees, where what is shared occurs as often as it is used. -/
theorem ordinals_firstOccurrence [Scalar R] [DecidableEq R] (es : List (Expr R)) :
    (∀ e : Expr R, e.visited.Nodup ∧ (∀ a, a ∈ e.visited ↔ Subexpression a e) ∧
      ∀ n, (replaceTerminalsM numberTerminal e).run n =
        (.ok e, n.numberAll (e.visited.filterMap ownElement?))) ∧
    (ofExprs es).Gapless ∧ (ofExprs es).size = (occurrences es).toFinset.card ∧
    ∀ x, (ofExprs es).ordinal? x =
      if x ∈ occurrences es then some (earlier (occurrences es) x).card else none := by
  have hnumbers := ofExprs_numbers es
  refine ⟨fun e => ⟨?_, fun a => ?_, run_numberTerminals e⟩, hnumbers.gapless, hnumbers.size,
    hnumbers.ordinal⟩
  · rw [visited_eq]
    exact nodup_eraseDups _
  · rw [visited_eq, List.mem_eraseDups, mem_nodes]

end ElementNumbering

/-! ## A product that is used twice -/

namespace SharedProduct

def domain : Domain :=
  .ofCell .triangle 5

/-- A coefficient of one element times a test function of another. -/
def product : Expr ℚ :=
  binary .product (leaf (.coefficient ⟨0, ⟨7, 1, []⟩, domain⟩))
    (leaf (.argument ⟨0, none, ⟨3, 1, []⟩, domain⟩))

def total : Expr ℚ :=
  binary .sum product product

/-- A component of the coordinates of a point, which are read from the element of the domain. -/
def coordinate : Expr ℚ :=
  unary (.indexed [.fixed 0]) (leaf (.geometry ⟨.spatialCoordinate, domain⟩))

end SharedProduct

open SharedProduct ElementNumbering in
/-- The tree of the sum has seven nodes, of which the walk comes to four, and the elements of the
product keep the numbers that its first occurrence gives them. -/
theorem ordinals_firstOccurrence_sharedProduct :
    total.nodes.length = 7 ∧ total.visited.length = 4 ∧ product ∈ total.visited ∧
      (ofExprs [total, coordinate]).size = 3 ∧
      (ofExprs [total, coordinate]).ordinal? 7 = some 0 ∧
      (ofExprs [total, coordinate]).ordinal? 3 = some 1 ∧
      (ofExprs [total, coordinate]).ordinal? 5 = some 2 := by
  have hoccurrences : occurrences [total, coordinate] = [7, 3, 7, 3, 5] := by cbv
  obtain ⟨hwalk, -, hsize, hordinal⟩ := ordinals_firstOccurrence [total, coordinate]
  rw [hsize, hordinal, hordinal, hordinal, hoccurrences]
  refine ⟨by cbv, ?_, ?_, by decide⟩
  · rw [visited_eq]
    decide +kernel
  · exact ((hwalk total).2.1 product).mpr (.operand List.mem_cons_self .refl)

end WeakForm
