import Mathlib.Data.List.Sort
import WeakForm.Proofs.ArgumentVector

/-!
# The order of the argument vector

The argument vector lists each descriptor of an argument among the leaves of a graph once, in
strictly ascending order. The order compares number and part of arguments, and neither element
nor domain, so it tells descriptors apart where arguments with the same number and part have the
same element and domain.

* `Descriptor.compareArguments?_eq` — the order, as one of all descriptors;
* `sortArguments_pairwise`, `distinct_sublist` — sorting, and keeping the first of each descriptor;
* `ScalarGraph.ArgumentVector`, `argumentVector_of_leaves` — the argument vector of a graph;
* `exists_position` — every argument among the leaves has a position.
-/

namespace WeakForm

instance : Std.TransOrd Side :=
  inferInstanceAs (Std.TransCmp (compareOn Side.rank))

instance : Std.LawfulEqOrd Side where
  eq_of_compare {a b} h := by cases a <;> cases b <;> first | rfl | cases h

instance : Std.TransOrd Averaging :=
  inferInstanceAs (Std.TransCmp (compareOn Averaging.rank))

instance : Std.LawfulEqOrd Averaging where
  eq_of_compare {a b} h := by cases a <;> cases b <;> first | rfl | cases h

variable {R : Type}

/-! ## Descriptors -/

namespace Descriptor

/-- The order of the argument vector, on all descriptors. -/
instance : Ord (Descriptor R) where
  compare :=
    compareLex (compareOn fun d => d.argument?.map Argument.number) <|
    compareLex (compareOn fun d => d.argument?.map Argument.part) <|
    compareLex (compareOn component) <| compareLex (compareOn physical) <|
    compareLex (compareOn reference) <| compareLex (compareOn restriction) <|
    compareOn averaged

instance : Std.TransOrd (Descriptor R) :=
  inferInstanceAs (Std.TransCmp (compareLex _ _))

variable {d d' : Descriptor R} {a b : Argument}

/-- Two arguments always compare. -/
theorem compareArguments?_eq (hd : d.argument? = some a) (hd' : d'.argument? = some b) :
    d.compareArguments? d' = some (compare d d') := by
  simp only [compareArguments?, hd, hd', compare, compareLex, compareOn]
  rfl

/-- Only an argument has a number and a part. -/
theorem terminal_of_argument? (h : d.argument? = some a) : d.terminal = .argument a := by
  unfold argument? at h
  cases ht : d.terminal with
  | argument a' =>
    rw [ht] at h
    cases h
    rfl
  | coefficient | geometry | literal | zero =>
    rw [ht] at h
    cases h

/-- Equals in the order are equal, if their arguments have the same element and domain. -/
theorem eq_of_compare_eq (hd : d.argument? = some a) (hd' : d'.argument? = some b)
    (hagree : a.number = b.number → a.part = b.part → a.element = b.element ∧ a.domain = b.domain)
    (h : compare d d' = .eq) : d = d' := by
  -- a comparison that ends equal is on equal values
  have same {β : Type} [Ord β] [Std.LawfulEqOrd β] {f : Descriptor R → β}
      (h : compareOn f d d' = .eq) : f d = f d' :=
    Std.LawfulEqOrd.eq_of_compare h
  simp only [compare, compareLex_eq_eq] at h
  obtain ⟨hnumber, hpart, hcomponent, hphysical, hreference, hrestriction, haveraged⟩ := h
  have hnumber : d.argument?.map Argument.number = d'.argument?.map Argument.number := same hnumber
  have hpart : d.argument?.map Argument.part = d'.argument?.map Argument.part := same hpart
  rw [hd, hd', Option.map_some, Option.map_some, Option.some.injEq] at hnumber hpart
  -- what the order does not compare of arguments agrees
  obtain ⟨helement, hdomain⟩ := hagree hnumber hpart
  have hargument : a = b := by
    cases a
    cases b
    simp_all
  have hterminal : d.terminal = d'.terminal := by
    rw [terminal_of_argument? hd, terminal_of_argument? hd', hargument]
  calc d
    _ = ⟨d.terminal, d.physical, d.reference, d.component, d.restriction, d.averaged⟩ := rfl
    _ = ⟨d'.terminal, d'.physical, d'.reference, d'.component, d'.restriction, d'.averaged⟩ := by
      rw [hterminal, same hphysical, same hreference, same hcomponent, same hrestriction,
        same haveraged]
    _ = d' := rfl

/-- Of two arguments in ascending order the numbers do not decrease. -/
theorem number_le_of_compareArguments? (hd : d.argument? = some a) (hd' : d'.argument? = some b)
    (h : d.compareArguments? d' = some .lt) : a.number ≤ b.number := by
  simp only [compareArguments?, hd, hd', Option.bind_eq_bind, Option.bind_some] at h
  by_contra hlt
  have hgt : compare a.number b.number = .gt := Nat.compare_eq_gt.mpr (Nat.lt_of_not_le hlt)
  rw [hgt] at h
  cases h

end Descriptor

namespace ScalarGraph

variable {leaves : List (NodeId × ModifiedTerminal R)}

/-! ## Sorted leaves -/

/-- The order of leaves, in which equals stand in the order of their nodes. -/
def leafOrder : NodeId × ModifiedTerminal R → NodeId × ModifiedTerminal R → Ordering :=
  compareLex (compareOn (·.2.toDescriptor)) (compareOn (·.1))

instance : Std.TransCmp (leafOrder (R := R)) :=
  inferInstanceAs (Std.TransCmp (compareLex _ _))

/-- Between arguments the comparison that leaves are sorted with is a total order. -/
theorem sortArguments_eq (h : ∀ l ∈ leaves, l.2.isArgument) :
    sortArguments leaves = leaves.mergeSort fun l l' => (leafOrder l l').isLE := by
  -- two arguments are compared, so the default of the comparison is never used
  have hle : ∀ l ∈ leaves, ∀ l' ∈ leaves,
      (((l.2.compareArguments? l'.2.toDescriptor).getD .eq).then (compare l.1 l'.1)).isLE =
        (leafOrder l l').isLE := by
    intro l hl l' hl'
    obtain ⟨a, ha⟩ := Option.isSome_iff_exists.mp (h l hl)
    obtain ⟨b, hb⟩ := Option.isSome_iff_exists.mp (h l' hl')
    rw [Descriptor.compareArguments?_eq ha hb]
    rfl
  have hmap := List.map_mergeSort (f := id) (s := fun l l' => (leafOrder l l').isLE) hle
  rwa [List.map_id, List.map_id] at hmap

/-- The order of leaves is total. -/
theorem leafOrder_total (l l' : NodeId × ModifiedTerminal R) :
    (leafOrder l l').isLE || (leafOrder l' l).isLE := by
  have hswap : leafOrder l l' = (leafOrder l' l).swap := Std.OrientedCmp.eq_swap
  rw [hswap]
  cases leafOrder l' l <;> rfl

/-- Sorted arguments ascend. -/
theorem sortArguments_pairwise (h : ∀ l ∈ leaves, l.2.isArgument) :
    ((sortArguments leaves).map (·.2)).Pairwise fun m m' =>
      (compare m.toDescriptor m'.toDescriptor).isLE := by
  rw [sortArguments_eq h, List.pairwise_map]
  refine (List.pairwise_mergeSort (fun _ _ _ => Std.TransCmp.isLE_trans) leafOrder_total
    leaves).imp fun hle => ?_
  exact (Ordering.isLE_then_iff_and.mp hle).1

variable [DecidableEq R]

/-- What is kept stands in the order it had. -/
theorem distinct_sublist (terminals : List (ModifiedTerminal R)) :
    (distinct terminals).Sublist terminals := by
  induction terminals using List.reverseRecOn with
  | nil => exact .slnil
  | append_singleton terminals m ih =>
    rw [distinct_concat]
    split
    · exact ih.trans (List.sublist_append_left _ _)
    · exact ih.append (.refl _)

/-- Every descriptor is kept. -/
theorem exists_mem_distinct {terminals : List (ModifiedTerminal R)} {m : ModifiedTerminal R}
    (h : m ∈ terminals) : ∃ m' ∈ distinct terminals, m'.toDescriptor = m.toDescriptor := by
  induction terminals using List.reverseRecOn with
  | nil => cases h
  | append_singleton terminals last ih =>
    rw [distinct_concat]
    rcases List.mem_append.mp h with h | h
    · -- what was kept before stays
      obtain ⟨m', hm, heq⟩ := ih h
      refine ⟨m', ?_, heq⟩
      split
      · exact hm
      · exact List.mem_append_left _ hm
    -- the last one is kept, unless one before has its descriptor
    · obtain rfl := List.mem_singleton.mp h
      split
      · next hseen =>
        obtain ⟨m', hm, heq⟩ := List.any_eq_true.mp hseen
        exact ⟨m', hm, of_decide_eq_true heq⟩
      · exact ⟨m, List.mem_append_right _ (List.mem_singleton_self m), rfl⟩

/-! ## The argument vector of a graph -/

variable {g : ScalarGraph R}

/-- The elements and domains of arguments are told by their numbers and parts. -/
def ArgumentsAgree (g : ScalarGraph R) : Prop :=
  ∀ (i j : NodeId) (m m' : ModifiedTerminal R) (a b : Argument), g.IsLeaf i m → g.IsLeaf j m' →
    m.argument? = some a → m'.argument? = some b → a.number = b.number → a.part = b.part →
      a.element = b.element ∧ a.domain = b.domain

/-- The arguments among the leaves of a graph, each descriptor once, in strictly ascending
order. -/
structure ArgumentVector (g : ScalarGraph R) (arguments : List (ModifiedTerminal R)) : Prop where
  leaf : ∀ m ∈ arguments, m.isArgument ∧ ∃ i, g.IsLeaf i m
  complete : ∀ i m, g.IsLeaf i m → m.isArgument →
    ∃ m' ∈ arguments, m'.toDescriptor = m.toDescriptor
  nodup : (arguments.map (·.toDescriptor)).Nodup
  ascending : arguments.Pairwise fun m m' => m.compareArguments? m'.toDescriptor = some .lt

/-- The argument vector that a factorization makes of the leaves. -/
theorem argumentVector_of_leaves (hg : g.WellFormed) (hagree : g.ArgumentsAgree)
    {found leaves : List (NodeId × ModifiedTerminal R)} (hfound : g.leafTerminals = .ok found)
    (hleaves : sortArguments (found.filter (·.2.isArgument)) = leaves) :
    g.ArgumentVector (distinct (leaves.map (·.2))) := by
  subst hleaves
  have harguments : ∀ l ∈ found.filter (·.2.isArgument), l.2.isArgument :=
    fun l hl => (List.mem_filter.mp hl).2
  -- what is kept is a sublist of the sorted arguments, and its descriptors differ
  have hleaf : ∀ m ∈ distinct ((sortArguments (found.filter (·.2.isArgument))).map (·.2)),
      m.isArgument ∧ ∃ i, g.IsLeaf i m := fun m hm => isLeaf_of_mem_distinct hg hfound hm
  have hnodup := (distinct_spec ((sortArguments (found.filter (·.2.isArgument))).map (·.2))).1
  have hsorted := (sortArguments_pairwise harguments).sublist (distinct_sublist _)
  refine ⟨hleaf, fun i m hi hm => exists_mem_distinct ?_, hnodup, ?_⟩
  · exact List.mem_map.mpr ⟨(i, m), (mem_argumentLeaves hg hfound).mpr ⟨hi, hm⟩, rfl⟩
  · refine (hsorted.and (List.pairwise_map.mp hnodup)).imp_of_mem fun {m m'} hm hm' h => ?_
    obtain ⟨hm, i, hi⟩ := hleaf m hm
    obtain ⟨hm', j, hj⟩ := hleaf m' hm'
    obtain ⟨a, ha⟩ := Option.isSome_iff_exists.mp hm
    obtain ⟨b, hb⟩ := Option.isSome_iff_exists.mp hm'
    rw [Descriptor.compareArguments?_eq ha hb]
    rcases Ordering.isLE_iff_eq_lt_or_eq_eq.mp h.1 with hlt | heq
    · rw [hlt]
    · -- equals would have one descriptor
      exact absurd (Descriptor.eq_of_compare_eq ha hb (hagree i j m m' a b hi hj ha hb) heq) h.2

/-- Every argument among the leaves has a position in the argument vector. -/
theorem exists_position {leaves : List (NodeId × ModifiedTerminal R)}
    {arguments : List (ModifiedTerminal R)} (harguments : arguments = distinct (leaves.map (·.2)))
    {i : NodeId} {m : ModifiedTerminal R} (h : (i, m) ∈ leaves) :
    ∃ p, (Std.HashMap.ofList (leaves.filterMap fun (i, m) =>
      (argumentPosition? arguments m).map (i, ·)))[i]? = some p := by
  obtain ⟨m', hm, heq⟩ := exists_mem_distinct (List.mem_map_of_mem (f := (·.2)) h)
  -- a terminal with this descriptor is in the vector
  have hposition : (argumentPosition? arguments m).isSome := by
    rw [argumentPosition?, List.findIdx?_isSome, List.any_eq_true, harguments]
    exact ⟨m', hm, decide_eq_true heq⟩
  obtain ⟨p, hp⟩ := Option.isSome_iff_exists.mp hposition
  rw [← Option.isSome_iff_exists, Std.HashMap.isSome_getElem?_iff_mem, Std.HashMap.mem_ofList,
    List.contains_iff_mem]
  refine List.mem_map.mpr ⟨(i, p), List.mem_filterMap.mpr ⟨(i, m), h, ?_⟩, rfl⟩
  show Option.map (i, ·) (argumentPosition? _ m) = _
  rw [hp, Option.map_some]

end ScalarGraph

end WeakForm
