import WeakForm.Proofs.BoundNames
import WeakForm.Proofs.Reachability

/-!
# Graphs that are built again

The graph of several expressions has their components as targets, in order, and nothing that
no target needs. Each component is canonical and can be inserted, so scalarization gives it
back, and inserting the components one after the other is all that there is to building the
graph. The same insertions make the graph of the components: it is the same graph, node by
node.

* `insertable_of_scalarize` — what scalarization returns can be inserted into a graph;
* `ofTargets_holds_insertable` — so can what the graph of expressions holds;
* `insert_reaches`, `GraphOf.insert` — what an insertion adds depends on what it returns;
* `GraphOf`, `ofTargets_graphOf` — graphs of components without other nodes;
* `ofTargets_rebuild` — the graph of its own targets is the graph.
-/

namespace WeakForm

variable {R : Type}

/-- The components of an expression can be inserted. -/
theorem Expr.insertable_of_scalarize [Scalar R] [DecidableEq R] {e : Expr R}
    {as : Array (Expr R)} (hc : Canonical e) (h : scalarize e = .ok as) :
    ∀ s ∈ as, Insertable s := by
  intro s hs
  have hlist := (componentwise_scalarize hc h).1
  -- every entry is a component
  obtain ⟨k, hk, rfl⟩ := Array.mem_iff_getElem.mp hs
  obtain ⟨c, σ, hcs, hσ, hplace⟩ := exists_placeAt hc.sorted (hlist.size ▸ hk)
  have hentry := hlist.entry c σ hcs hσ
  rw [hplace, Array.getElem?_eq_getElem hk] at hentry
  exact component_insertable hentry.symm

namespace ScalarGraph

open Building WeakForm.Expr

variable [DecidableEq R] {g g' : ScalarGraph R} {e : Expr R} {i j k : NodeId}

/-! ## What an insertion adds -/

/-- A node of a graph depends on the same nodes in all extensions. -/
theorem Reaches.mono (h : g.Extends g') (hr : g.Reaches i j) : g'.Reaches i j := by
  refine Relation.ReflTransGen.mono (fun a b hb => ?_) i j hr
  cases hn : g.nodes[a]? with
  | none => simp [operandsAt, hn] at hb
  | some n =>
    rw [operandsAt_eq hn] at hb
    rwa [operandsAt_eq (h.nodes a n hn)]

/-- A new node depends on what its operands depend on. -/
theorem reaches_push {operands : List NodeId} (hk : k ∈ operands) (h : g.Reaches k j) :
    (g.push e operands).Reaches g.size j := by
  have hnode : (g.push e operands).nodes[g.size]? = some { expr := e, operands } :=
    Array.getElem?_push_size
  refine .head ?_ (h.mono (extends_push g e operands))
  rw [operandsAt_eq hnode]
  exact hk

/-- A node of the larger graph is the new one or an old one. -/
theorem lt_size_push {operands : List NodeId} (h : j < (g.push e operands).size) :
    j = g.size ∨ j < g.size := by
  rw [push, size, Array.size_push] at h
  exact (Nat.lt_succ_iff_lt_or_eq.mp h).symm

/-- **What an insertion adds, the node that it returns depends on.** -/
theorem insert_reaches (hg : g.WellFormed) (h : Returns (insert e) g i g') :
    ∀ j < g'.size, j < g.size ∨ g'.Reaches i j := by
  induction e generalizing g g' i with
  | leaf | listTensor =>
    cases insert_run h with
    | found => exact fun j hj => .inl hj
    | terminal =>
      -- the terminal itself is new
      intro j hj
      rcases lt_size_push hj with rfl | hj
      · exact .inr .refl
      · exact .inl hj
  | unary op a ih =>
    cases insert_run h with
    | found => exact fun j hj => .inl hj
    | unary hop hnew hs ha =>
      -- the new node reaches the nodes added for its operand
      intro j hj
      rcases lt_size_push hj with rfl | hj
      · exact .inr .refl
      · exact (ih hg ha j hj).imp_right (reaches_push (List.mem_singleton.mpr rfl))
    | terminal =>
      intro j hj
      rcases lt_size_push hj with rfl | hj
      · exact .inr .refl
      · exact .inl hj
  | binary op a b iha ihb =>
    cases insert_run h with
    | found => exact fun j hj => .inl hj
    | binary hnew hs ha hb =>
      have hinserted := insert_returns hg ha
      have hgrown := (insert_returns hinserted.wellFormed hb).grown
      intro j hj
      rcases lt_size_push hj with rfl | hj
      · exact .inr .refl
      -- added with the second operand, with the first one, or there before
      rcases ihb hinserted.wellFormed hb j hj with hj | hreaches
      · refine (iha hg ha j hj).imp_right fun hreaches => ?_
        exact reaches_push List.mem_cons_self (hreaches.mono hgrown)
      · exact .inr (reaches_push (List.mem_cons_of_mem _ List.mem_cons_self) hreaches)
    | terminal hop => cases hop

/-- What the graph of built expressions holds can be inserted into a graph. -/
theorem ofTargets_holds_insertable [Scalar R] {es : List (Expr R)} (hb : ∀ e ∈ es, Built e)
    (h : ofTargets es = .ok g) : g.Holds Insertable := by
  refine ofTargets_keeps (fun e he a ha => insertable_part (.operand ha .refl) he) ?_ h
  exact fun e he as has => insertable_of_scalarize (hb e he).canonical has

/-! ## Graphs without other nodes -/

/-- A graph of the given components: they are its targets, and targets need every node. -/
structure GraphOf (g : ScalarGraph R) (es : List (Expr R)) : Prop where
  wellFormed : g.WellFormed
  targets : g.Targets es
  needed : ∀ i < g.size, g.Needed i

/-- The empty graph is the graph of no expressions. -/
theorem graphOf_empty : ({} : ScalarGraph R).GraphOf [] where
  wellFormed := wellFormed_empty
  targets := .nil
  needed i hi := absurd hi (Nat.not_lt_zero i)

/-- One component more. -/
theorem GraphOf.insert {es : List (Expr R)} {u : Unit} (hg : g.GraphOf es)
    (h : Returns (insertTarget e) g u g') : g'.GraphOf (es ++ [e]) := by
  refine ⟨insertTarget_returns hg.wellFormed h, hg.targets.insert hg.wellFormed h, ?_⟩
  obtain ⟨t, g₁, hins, hpush⟩ := returns_bind.mp h
  obtain rfl := returns_modify.mp hpush
  have hinserted := insert_returns hg.wellFormed hins
  intro i hi
  -- the old nodes are needed by old targets, and the others by the new one
  rcases insert_reaches hg.wellFormed hins i hi with hold | hreaches
  · obtain ⟨t', ht', hreaches⟩ := hg.needed i hold
    rw [← hinserted.grown.targets] at ht'
    have hreaches : g₁.Reaches t' i := hreaches.mono hinserted.grown
    exact ⟨t', Array.mem_push.mpr (.inl ht'), hreaches⟩
  · exact ⟨t, Array.mem_push.mpr (.inr rfl), hreaches⟩

/-- Inserting targets keeps the nodes within reach of targets. -/
theorem GraphOf.forM {done es : List (Expr R)} {u : Unit} (hg : g.GraphOf done)
    (h : Returns (es.forM insertTarget) g u g') : g'.GraphOf (done ++ es) := by
  induction es generalizing done g with
  | nil =>
    obtain ⟨-, rfl⟩ := returns_pure.mp h
    rwa [List.append_nil]
  | cons e es ih =>
    obtain ⟨v, g₁, hfirst, hrest⟩ := returns_bind.mp h
    have hall := ih (hg.insert hfirst) hrest
    rwa [List.append_assoc] at hall

/-! ## The graph of its targets -/

variable [Scalar R]

/-- **A graph is the graph of its targets.** Every node of the graph of built expressions is a
target, or a target depends on it. The targets are the components of the expressions, in order,
each list with the axes outside and the free indices inside. The graph of the components that
the targets hold is built, and it is the same graph. -/
theorem ofTargets_rebuild {es : List (Expr R)} (hb : ∀ e ∈ es, Built e)
    (h : ofTargets es = .ok g) :
    (∀ i < g.size, g.Needed i) ∧
      ∃ components : List (Array (Expr R)),
        List.Forall₂ (fun e as => scalarize e = .ok as ∧ Componentwise e as) es components ∧
          g.Targets (components.flatMap Array.toList) ∧
          ofTargets (components.flatMap Array.toList) = .ok g := by
  obtain ⟨components, hall, hr⟩ := ofTargets_eq_ok.mp h
  have hgraph := graphOf_empty.forM hr
  -- components are canonical and can be inserted
  have hcomponents : ∀ s ∈ components.flatMap Array.toList, Canonical s ∧ Insertable s := by
    intro s hs
    obtain ⟨as, has, hsa⟩ := List.mem_flatMap.mp hs
    obtain ⟨e, he, has⟩ := exists_left_of_mem hall has
    have hc := (hb e he).canonical
    have hsa := Array.mem_toList_iff.mp hsa
    exact ⟨scalarize_canonical hc has s hsa, insertable_of_scalarize hc has s hsa⟩
  refine ⟨hgraph.needed, components, ?_, hgraph.targets, ?_⟩
  · exact forall₂_imp_of_mem hall fun e he as has =>
      ⟨has, (componentwise_scalarize (hb e he).canonical has).1⟩
  · -- both graphs are made by the same insertions
    exact (ofTargets_canonical_insertable (fun s hs => (hcomponents s hs).1)
      fun s hs => (hcomponents s hs).2).mpr hr

end ScalarGraph

/-- The graph of the product of two vectors is that of the sum which is written out, and it
holds nothing but parts of the sum. -/
theorem ScalarGraph.ofTargets_rebuild_twoVectors :
    ∃ g, ofTargets [Expr.TwoVectors.implicit] = .ok g ∧ (∀ i < g.size, g.Needed i) ∧
      g.Targets [Expr.TwoVectors.explicit] ∧ ofTargets [Expr.TwoVectors.explicit] = .ok g := by
  obtain ⟨g, hg⟩ := Expr.TwoVectors.exists_ofTargets_implicit
  have hb : ∀ e ∈ [Expr.TwoVectors.implicit], Expr.Built e := fun e he => by
    rw [List.mem_singleton.mp he]
    exact Expr.TwoVectors.built_implicit
  obtain ⟨hneeded, components, hall, htargets, hrebuild⟩ := ofTargets_rebuild hb hg
  -- the one expression has one component
  obtain ⟨as, rest, ⟨has, -⟩, hrest, rfl⟩ := List.forall₂_cons_left_iff.mp hall
  obtain rfl := List.forall₂_nil_left_iff.mp hrest
  have hlist := Expr.TwoVectors.scalarizeAll_implicit
  rw [Expr.scalarizeAll_eq, List.map_singleton, List.singleton_inj, has] at hlist
  obtain rfl := Except.ok.inj hlist
  exact ⟨g, hg, hneeded, htargets, hrebuild⟩

end WeakForm
