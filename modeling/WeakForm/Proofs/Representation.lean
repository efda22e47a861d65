import WeakForm.Proofs.Reachability
import WeakForm.Proofs.Typing

/-!
# The representation invariant of graphs

A graph is used through a few operations: inserting scalar expressions, adding targets, and
noting statuses, tables and descriptors. Whatever sequence of them is run on a new graph, the
index, the order of the nodes and the operands they refer to stay consistent. An insertion that
fails stops in the middle, at a part of the expression that has no place in a graph. The parts
before it are then in the graph, each after its operands, and nothing else has changed.

What is noted about a node may be anything here, also a descriptor that does not belong to its
expression. The fields of a node are kept in one record, so no node lacks one of them, and that
they have one length is no invariant of the operations but of the type.

* `insert_eq` — an insertion, with its operands inserted one after the other;
* `ScalarGraph.Represented` — the invariant;
* `Grows`, `insert_outcome` — what an insertion does to a graph, whether it fails or not;
* `scalar_part` — parts of scalar expressions are scalar, so no insertion of one panics;
* `Run`, `run_insert` — the invariant over all runs, and the contract of insertion.
-/

namespace WeakForm

variable {R : Type} [DecidableEq R] {α β : Type}

/-! ## Computations that return or fail -/

namespace Building

/-- Started on `g`, the computation ends with the outcome `r` and the graph `g'`. -/
def Ends (m : Building R α) (g : ScalarGraph R) (r : Except (Error R) α) (g' : ScalarGraph R) :
    Prop :=
  m.run.run g = (r, g')

variable {g g' : ScalarGraph R}

@[simp] theorem ends_pure {a : α} {r : Except (Error R) α} :
    Ends (pure a : Building R α) g r g' ↔ r = .ok a ∧ g' = g := by
  constructor
  · intro h
    cases h
    exact ⟨rfl, rfl⟩
  · rintro ⟨rfl, rfl⟩
    rfl

@[simp] theorem ends_throw {e : Error R} {r : Except (Error R) α} :
    Ends (throw e : Building R α) g r g' ↔ r = .error e ∧ g' = g := by
  constructor
  · intro h
    cases h
    exact ⟨rfl, rfl⟩
  · rintro ⟨rfl, rfl⟩
    rfl

/-- A composition ends in its first step with an error, or in the second one. -/
theorem ends_bind {m : Building R α} {f : α → Building R β} {r : Except (Error R) β} :
    Ends (m >>= f) g r g' ↔ (∃ err, Ends m g (.error err) g' ∧ r = .error err) ∨
      ∃ a g₁, Ends m g (.ok a) g₁ ∧ Ends (f a) g₁ r g' :=
  run_bind_eq

/-- Reading the graph neither fails nor changes it. -/
theorem ends_get {f : ScalarGraph R → Building R β} {r : Except (Error R) β} :
    Ends (get >>= f) g r g' ↔ Ends (f g) g r g' :=
  Iff.rfl

end Building

namespace ScalarGraph

open Building

variable {g g' g'' : ScalarGraph R} {e : Expr R}

/-! ## Insertion, operand by operand -/

/-- Appending a node always succeeds. -/
theorem ends_append {operands : List NodeId} {r : Except (Error R) NodeId} :
    Ends (append e operands) g r g' ↔ r = .ok g.size ∧ g' = g.push e operands := by
  constructor
  · intro h
    cases h
    exact ⟨rfl, rfl⟩
  · rintro ⟨rfl, rfl⟩
    rfl

/-- An expression that is new and scalar is put on top of its operands, or is a terminal. -/
theorem insert_eq (e : Expr R) : insert e = (do
    match (← get).lookup e with
    | some i => return i
    | none =>
      unless e.isScalar do throw (.breach (.nodeNotScalar e))
      unless operandsOf e ≠ [] ∨ e.isModifiedTerminal do throw (.unexpectedNode e)
      append e (← (operandsOf e).mapM insert)) := by
  rw [insert.eq_def]
  congr 1
  funext g
  cases g.lookup e with
  | some i => rfl
  | none =>
    cases e with
    | leaf | binary | listTensor => simp [operandsOf]
    | unary op a => cases op <;> simp [operandsOf]

/-- Why an expression is not inserted. -/
inductive Rejects (e : Expr R) : Error R → Prop
  | notScalar (h : e.isScalar = false) : Rejects e (.breach (.nodeNotScalar e))
  | unexpected (ho : operandsOf e = []) (ht : e.isModifiedTerminal = false) :
      Rejects e (.unexpectedNode e)

/-- How an insertion ends. -/
inductive InsertEnd (g : ScalarGraph R) (e : Expr R) :
    Except (Error R) NodeId → ScalarGraph R → Prop
  | found {i : NodeId} (h : g.lookup e = some i) : InsertEnd g e (.ok i) g
  | rejected {err : Error R} (h : Rejects e err) : InsertEnd g e (.error err) g
  /-- The insertion of an operand has failed. -/
  | operand {err : Error R} {g' : ScalarGraph R}
      (h : Ends ((operandsOf e).mapM insert) g (.error err) g') : InsertEnd g e (.error err) g'
  | node {operands : List NodeId} {g' : ScalarGraph R} (hnew : g.lookup e = none)
      (hs : e.isScalar) (ht : operandsOf e ≠ [] ∨ e.isModifiedTerminal)
      (h : Ends ((operandsOf e).mapM insert) g (.ok operands) g') :
      InsertEnd g e (.ok g'.size) (g'.push e operands)

/-- An insertion ends in one of four ways. -/
theorem insert_ends {r : Except (Error R) NodeId} (h : Ends (insert e) g r g') :
    InsertEnd g e r g' := by
  rw [insert_eq, ends_get] at h
  split at h
  · next i hi =>
    obtain ⟨rfl, rfl⟩ := ends_pure.mp h
    exact .found hi
  · next hnew =>
    by_cases hs : e.isScalar
    · by_cases ht : operandsOf e ≠ [] ∨ e.isModifiedTerminal
      -- a node is appended over the operands, if these are inserted
      · simp only [if_pos hs, if_pos ht, ends_bind] at h
        rcases h with ⟨err, herr, rfl⟩ | ⟨operands, g₁, hops, h⟩
        · exact .operand herr
        · obtain ⟨rfl, rfl⟩ := ends_append.mp h
          exact .node hnew hs ht hops
      -- the expression has no place in a graph
      · simp only [if_pos hs, if_neg ht, ends_bind, ends_throw] at h
        simp only [not_or, not_not, Bool.not_eq_true] at ht
        obtain ⟨err, ⟨herr, rfl⟩, rfl⟩ | ⟨a, g₁, ⟨h, -⟩, -⟩ := h
        · cases herr
          exact .rejected (.unexpected ht.1 ht.2)
        · cases h
    -- only scalars have one
    · simp only [if_neg hs, ends_bind, ends_throw] at h
      obtain ⟨err, ⟨herr, rfl⟩, rfl⟩ | ⟨a, g₁, ⟨h, -⟩, -⟩ := h
      · cases herr
        exact .rejected (.notScalar (by simpa using hs))
      · cases h

/-! ## The invariant -/

/-- The representation invariant. -/
structure Represented (g : ScalarGraph R) : Prop where
  /-- What is kept about the nodes is there for all of them, and for nothing else. This holds of
  every graph, whatever its history: all of it stands in one array of records. -/
  records : ∀ i, i < g.size ↔ ∃ n, g.nodes[i]? = some n
  scalar : ∀ i e, g.expr i = .ok e → e.isScalar
  /-- Different nodes hold different expressions. -/
  distinct : ∀ i j e, g.expr i = .ok e → g.expr j = .ok e → i = j
  lookup : ∀ e i, g.lookup e = some i ↔ g.expr i = .ok e
  /-- The operands of a node come before it and hold the operands of its expression, in order. -/
  operands : ∀ (i : NodeId) (n : Node R), g.nodes[i]? = some n → n.expr.isModifiedTerminal = false →
    List.Forall₂ (fun j a => j < i ∧ g.expr j = .ok a) n.operands n.expr.operands
  /-- Modified terminals, and nothing else, have no operands. -/
  leaves : ∀ (i : NodeId) (n : Node R), g.nodes[i]? = some n →
    (n.operands = [] ↔ n.expr.isModifiedTerminal)
  targets : ∀ t ∈ g.targets, t < g.size

/-- One array of nodes has one length. -/
theorem lt_size_iff {i : NodeId} : i < g.size ↔ ∃ n, g.nodes[i]? = some n := by
  constructor
  · exact fun h => ⟨_, Array.getElem?_eq_getElem h⟩
  · rintro ⟨n, hn⟩
    exact (Array.getElem?_eq_some_iff.mp hn).1

/-- The empty graph meets the invariant. -/
theorem represented_empty : ({} : ScalarGraph R).Represented where
  records i := lt_size_iff
  scalar i e h := by simp [expr, node, Except.map] at h
  distinct i j e h := by simp [expr, node, Except.map] at h
  lookup e i := by simp [ScalarGraph.lookup, expr, node, Except.map]
  operands i n h := by simp at h
  leaves i n h := by simp at h
  targets t h := by simp at h

omit [DecidableEq R] in
/-- What has operands in a graph has all its operands there. -/
theorem operandsOf_eq (h : operandsOf e ≠ []) : operandsOf e = e.operands := by
  cases e with
  | leaf | listTensor => exact absurd rfl h
  | binary => rfl
  | unary op a => cases op <;> first | rfl | exact absurd rfl h

/-- A new scalar expression over operands that are in the graph. -/
theorem Represented.push (hg : g.Represented) {operands : List NodeId} (hnew : g.lookup e = none)
    (hs : e.isScalar) (ht : operandsOf e ≠ [] ∨ e.isModifiedTerminal)
    (ho : List.Forall₂ (fun j a => g.expr j = .ok a) operands (operandsOf e)) :
    (g.push e operands).Represented := by
  have hgrown := extends_push g e operands
  -- no node held the expression before
  have hnone : ∀ i, g.expr i ≠ .ok e := by
    intro i hi
    rw [← hg.lookup, hnew] at hi
    cases hi
  refine ⟨fun _ => lt_size_iff, fun i e' h => ?_, fun i j e' hi hj => ?_,
    lookup_push hg.lookup hnew, fun i n hn hm => ?_, fun i n hn => ?_, fun t htarget => ?_⟩
  -- what is held is scalar
  · rcases expr_push h with h | ⟨-, rfl⟩
    · exact hg.scalar i e' h
    · exact hs
  -- no two nodes hold one expression
  · rcases expr_push hi with hold | ⟨rfl, rfl⟩
    · rcases expr_push hj with hold' | ⟨rfl, rfl⟩
      · exact hg.distinct i j e' hold hold'
      · exact absurd hold (hnone i)
    · rcases expr_push hj with hold' | ⟨rfl, -⟩
      · exact absurd hold' (hnone j)
      · rfl
  · rcases nodes_push hn with hn | ⟨rfl, rfl⟩
    · exact (hg.operands i n hn hm).imp fun j a hj => ⟨hj.1, hgrown.expr hj.2⟩
    · -- the operands are nodes of the graph before
      have hops : operandsOf e ≠ [] := ht.resolve_right (by rw [hm]; decide)
      rw [operandsOf_eq hops] at ho
      exact ho.imp fun j a hj => ⟨lt_size_of_expr hj, hgrown.expr hj⟩
  · rcases nodes_push hn with hn | ⟨rfl, rfl⟩
    · exact hg.leaves i n hn
    · constructor
      -- without operands the expression is a terminal
      · rintro rfl
        have hnil : operandsOf e = [] := List.forall₂_nil_left_iff.mp ho
        exact ht.resolve_left (not_not.mpr hnil)
      · intro hm
        rw [operandsOf_terminal hm] at ho
        exact List.forall₂_nil_right_iff.mp ho
  -- targets are nodes of the larger graph
  · have hlt := hg.targets t htarget
    show t < (g.nodes.push _).size
    rw [Array.size_push]
    exact Nat.lt_succ_of_lt hlt

/-- The notes about nodes are no part of the invariant. -/
theorem Reannotates.represented (h : g.Reannotates g') (hg : g.Represented) : g'.Represented where
  records _ := lt_size_iff
  scalar i e he := hg.scalar i e (h.expr.mp he)
  distinct i j e hi hj := hg.distinct i j e (h.expr.mp hi) (h.expr.mp hj)
  lookup e i := by
    rw [ScalarGraph.lookup, h.index, h.expr]
    exact hg.lookup e i
  operands i n' hn' hm := by
    obtain ⟨n, hn, hexpr, hoperands⟩ := h.node_of hn'
    rw [hexpr] at hm ⊢
    rw [hoperands]
    exact (hg.operands i n hn hm).imp fun j a hj => ⟨hj.1, h.expr.mpr hj.2⟩
  leaves i n' hn' := by
    obtain ⟨n, hn, hexpr, hoperands⟩ := h.node_of hn'
    rw [hexpr, hoperands]
    exact hg.leaves i n hn
  targets t ht := by
    rw [h.size]
    rw [h.targets] at ht
    exact hg.targets t ht

/-- Making a node a target keeps the invariant. -/
theorem Represented.pushTarget (hg : g.Represented) {i : NodeId} (hi : i < g.size) :
    (g.pushTarget i).Represented where
  records := hg.records
  scalar := hg.scalar
  distinct := hg.distinct
  lookup := hg.lookup
  operands := hg.operands
  leaves := hg.leaves
  targets t ht := by
    rcases Array.mem_push.mp ht with ht | rfl
    · exact hg.targets t ht
    · exact hi

/-! ## What an insertion does -/

end ScalarGraph

/-- Nothing is noted about the node yet. -/
structure Node.Unnoted (n : Node R) : Prop where
  status : n.status = .inactive
  terminal : n.terminal = none
  table : n.table = none

namespace ScalarGraph

open Building

variable {g g' g'' : ScalarGraph R} {a e : Expr R} {P Q : Expr R → Prop}

/-- The graph `g'` has the nodes and the targets of `g`, and after them new nodes with a
property, about which nothing is noted. -/
structure Grows (P : Expr R → Prop) (g g' : ScalarGraph R) : Prop where
  represented : g'.Represented
  grown : g.Extends g'
  appended : ∀ (i : NodeId) (n : Node R), g'.nodes[i]? = some n →
    g.nodes[i]? = some n ∨ (P n.expr ∧ n.Unnoted)

theorem Grows.refl (hg : g.Represented) : Grows P g g :=
  ⟨hg, .refl g, fun _ _ => .inl⟩

/-- Growing is transitive. -/
theorem Grows.trans (h : Grows P g g') (h' : Grows P g' g'') : Grows P g g'' where
  represented := h'.represented
  grown := h.grown.trans h'.grown
  appended i n hn := by
    rcases h'.appended i n hn with hn | hn
    · exact h.appended i n hn
    · exact .inr hn

/-- What is added has any property that follows. -/
theorem Grows.imp (h : Grows P g g') (hPQ : ∀ a, P a → Q a) : Grows Q g g' where
  represented := h.represented
  grown := h.grown
  appended i n hn := (h.appended i n hn).imp_right fun hn => ⟨hPQ _ hn.1, hn.2⟩

/-- What is held was held before or has been added. -/
theorem Grows.expr (h : Grows P g g') {i : NodeId} (hi : g'.expr i = .ok a) :
    g.expr i = .ok a ∨ P a := by
  obtain ⟨n, hn, rfl⟩ := expr_eq_ok.mp hi
  rcases h.appended i n hn with hn | ⟨hP, -⟩
  · exact .inl (expr_eq_ok.mpr ⟨n, hn, rfl⟩)
  · exact .inr hP

omit [DecidableEq R] in
theorem size_lt_of_operandsOf (h : a ∈ operandsOf e) : a.size < e.size :=
  Expr.size_lt_of_mem_operands (mem_operands h)

omit [DecidableEq R] in
/-- Parts are no larger. -/
theorem Part.size_le (h : Part a e) : a.size ≤ e.size := by
  induction h with
  | refl => exact Nat.le_refl _
  | operand hb _ ih =>
    have := size_lt_of_operandsOf hb
    omega

/-- The expression is a proper part of another. -/
def ProperPart (a e : Expr R) : Prop :=
  ∃ b ∈ operandsOf e, Part a b

omit [DecidableEq R] in
theorem ProperPart.part (h : ProperPart a e) : Part a e := by
  obtain ⟨b, hb, h⟩ := h
  exact .operand hb h

omit [DecidableEq R] in
/-- A proper part is not the whole. -/
theorem ProperPart.ne (h : ProperPart a e) : a ≠ e := by
  obtain ⟨b, hb, h⟩ := h
  have := size_lt_of_operandsOf hb
  have := h.size_le
  rintro rfl
  omega

/-- What an insertion that ends with the outcome `r` has done. -/
structure Outcome (g : ScalarGraph R) (e : Expr R) (r : Except (Error R) NodeId)
    (g' : ScalarGraph R) : Prop where
  grows : Grows (Part · e) g g'
  /-- The node that is returned holds the expression. -/
  node : ∀ i, r = .ok i → g'.expr i = .ok e
  /-- A failure is that of a part, and adds proper parts only. -/
  failed : ∀ err, r = .error err → Grows (ProperPart · e) g g' ∧ ∃ a, Part a e ∧ Rejects a err

/-- What inserting expressions one after the other has done. -/
theorem mapM_outcome {as : List (Expr R)} {r : Except (Error R) (List NodeId)}
    (h : ∀ a ∈ as, ∀ {g r g'}, g.Represented → Ends (insert a) g r g' → g.Outcome a r g')
    (hg : g.Represented) (hr : Ends (as.mapM insert) g r g') :
    Grows (fun b => ∃ a ∈ as, Part b a) g g' ∧
      (∀ js, r = .ok js → List.Forall₂ (fun j a => g'.expr j = .ok a) js as) ∧
      ∀ err, r = .error err → ∃ a ∈ as, ∃ b, Part b a ∧ Rejects b err := by
  induction as generalizing g r g' with
  | nil =>
    obtain ⟨rfl, rfl⟩ := ends_pure.mp hr
    refine ⟨.refl hg, fun js hjs => ?_, nofun⟩
    cases hjs
    exact .nil
  | cons a as ih =>
    rw [List.mapM_cons] at hr
    have hfirst : ∀ {b}, Part b a → ∃ c ∈ a :: as, Part b c := fun hb =>
      ⟨a, List.mem_cons_self, hb⟩
    rcases ends_bind.mp hr with ⟨err, herr, rfl⟩ | ⟨j, g₁, hj, hr⟩
    · -- the first insertion has failed
      have hout := h a List.mem_cons_self hg herr
      obtain ⟨-, b, hb, hreject⟩ := hout.failed err rfl
      refine ⟨hout.grows.imp fun _ => hfirst, nofun, fun err' herr' => ?_⟩
      cases herr'
      exact ⟨a, List.mem_cons_self, b, hb, hreject⟩
    · have hout := h a List.mem_cons_self hg hj
      -- the others are inserted into the graph that the first one left
      have hrest : ∀ {r g'}, Ends (as.mapM insert) g₁ r g' → _ := fun hr =>
        ih (fun c hc => h c (List.mem_cons_of_mem _ hc)) hout.grows.represented hr
      have hlater : ∀ {b}, (∃ c ∈ as, Part b c) → ∃ c ∈ a :: as, Part b c :=
        fun ⟨c, hc, hb⟩ => ⟨c, List.mem_cons_of_mem _ hc, hb⟩
      rcases ends_bind.mp hr with ⟨err, herr, rfl⟩ | ⟨js, g₂, hjs, hr⟩
      -- one of the others has failed
      · obtain ⟨hgrows, -, hfailed⟩ := hrest herr
        refine ⟨(hout.grows.imp fun _ => hfirst).trans (hgrows.imp fun _ => hlater), nofun,
          fun err' herr' => ?_⟩
        cases herr'
        obtain ⟨c, hc, hb⟩ := hfailed err rfl
        exact ⟨c, List.mem_cons_of_mem _ hc, hb⟩
      -- all operands are inserted, and their nodes are in the last graph
      · obtain ⟨hgrows, hnodes, -⟩ := hrest hjs
        obtain ⟨rfl, rfl⟩ := ends_pure.mp hr
        refine ⟨(hout.grows.imp fun _ => hfirst).trans (hgrows.imp fun _ => hlater),
          fun js' hjs' => ?_, nofun⟩
        cases hjs'
        exact .cons (hgrows.grown.expr (hout.node j rfl)) (hnodes js rfl)

/-- **What an insertion does**, whether it fails or not. -/
theorem insert_outcome {r : Except (Error R) NodeId} (hg : g.Represented)
    (h : Ends (insert e) g r g') : g.Outcome e r g' := by
  -- on the size, since operands come in a list
  induction hsize : e.size using Nat.strong_induction_on generalizing e g r g' with
  | _ k ih =>
  subst hsize
  have hoperands : ∀ {r g'}, Ends ((operandsOf e).mapM insert) g r g' → _ := fun hr =>
    mapM_outcome (fun a ha _ _ _ hg h => ih _ (size_lt_of_operandsOf ha) hg h rfl) hg hr
  cases insert_ends h with
  | found hi =>
    -- the graph holds the expression already
    refine ⟨.refl hg, fun i heq => ?_, nofun⟩
    cases heq
    exact (hg.lookup e _).mp hi
  | rejected hreject =>
    refine ⟨.refl hg, nofun, fun err heq => ?_⟩
    cases heq
    exact ⟨.refl hg, e, .refl, hreject⟩
  | operand herr =>
    -- an operand has failed, and what was added are proper parts
    obtain ⟨hgrows, -, hfailed⟩ := hoperands herr
    refine ⟨hgrows.imp fun a ha => ProperPart.part ha, nofun, fun err heq => ⟨hgrows, ?_⟩⟩
    cases heq
    obtain ⟨a, ha, b, hb, hreject⟩ := hfailed _ rfl
    exact ⟨b, ProperPart.part ⟨a, ha, hb⟩, hreject⟩
  | @node operands g₁ hnew hs ht hops =>
    obtain ⟨hgrows, hnodes, -⟩ := hoperands hops
    -- the expression is no part of its operands, so it is still new
    have hnone : g₁.lookup e = none := by
      cases hl : g₁.lookup e with
      | none => rfl
      | some i =>
        rcases hgrows.expr ((hgrows.represented.lookup e i).mp hl) with hi | hpart
        · rw [← hg.lookup, hnew] at hi
          cases hi
        · exact absurd rfl (ProperPart.ne hpart)
    refine ⟨⟨hgrows.represented.push hnone hs ht (hnodes operands rfl),
      hgrows.grown.trans (extends_push _ _ _), fun i n hn => ?_⟩, fun i heq => ?_, nofun⟩
    -- the nodes added are proper parts, and the last one is the expression
    · rcases nodes_push hn with hn | ⟨-, rfl⟩
      · exact (hgrows.appended i n hn).imp_right fun hn => ⟨ProperPart.part hn.1, hn.2⟩
      · exact .inr ⟨.refl, rfl, rfl, rfl⟩
    · cases heq
      exact expr_push_self _ _ _

/-! ## Insertion does not panic -/

section Panics

variable [Scalar R]

omit [DecidableEq R] in
/-- The operands that a scalar expression has in a graph are scalar. -/
theorem scalar_operandsOf (hcan : e.Canonical) (hs : e.isScalar) (ha : a ∈ operandsOf e) :
    a.isScalar := by
  rw [Expr.isScalar_iff] at hs ⊢
  cases hcan with
  | leaf | listTensor => cases ha
  | @unary op b hcb happly =>
    have hshape := Expr.shape_unary op b
    have hfree := Expr.free_unary op b
    cases op with
    -- both functions keep the free indices
    | math f =>
      obtain rfl := List.mem_singleton.mp ha
      exact ⟨(Expr.math_built happly).1, hfree.symm.trans hs.2⟩
    | abs =>
      obtain rfl := List.mem_singleton.mp ha
      exact ⟨hshape.symm.trans hs.1, hfree.symm.trans hs.2⟩
    | indexSum | indexed | componentTensor | restricted | grad | referenceGrad
      | spatialDerivative | averaged | labelled => cases ha
  | @binary op b c hcb hcc happly =>
    -- without free indices in the expression there are none in its operands
    have hnone : b.free = [] ∧ c.free = [] := by
      have hmem : ∀ x, ¬(x ∈ b.free ∨ x ∈ c.free) := fun x hx => by
        have hx := (Expr.mem_free_binary hcb.sorted hcc.sorted happly).mpr hx
        rw [hs.2] at hx
        cases hx
      exact ⟨List.eq_nil_iff_forall_not_mem.mpr fun x hx => hmem x (.inl hx),
        List.eq_nil_iff_forall_not_mem.mpr fun x hx => hmem x (.inr hx)⟩
    -- and both operands are without axes
    have hshapes : b.shape = [] ∧ c.shape = [] := by
      have hshape := (Expr.shape_binary op b c).symm.trans hs.1
      cases op with
      | sum =>
        obtain ⟨heq, -⟩ := Expr.add_built happly
        exact ⟨hshape, heq.symm.trans hshape⟩
      | product =>
        obtain ⟨hor, -⟩ := Expr.mul_built happly
        rw [Expr.product_shape] at hshape
        split at hshape
        · next hb => exact ⟨hb, hshape⟩
        · next hb => exact absurd hshape hb
      | division => exact ⟨hshape, (Expr.div_built happly).1⟩
      | power =>
        obtain ⟨hb, hc, -⟩ := Expr.pow_built happly
        exact ⟨hb, hc⟩
    rcases List.mem_pair.mp ha with rfl | rfl
    · exact ⟨hshapes.1, hnone.1⟩
    · exact ⟨hshapes.2, hnone.2⟩

omit [DecidableEq R] in
/-- The parts of a scalar are scalar. -/
theorem scalar_part (hcan : e.Canonical) (hs : e.isScalar) (h : Part a e) : a.isScalar := by
  induction h with
  | refl => exact hs
  | operand hb _ ih =>
    have hcan' := Expr.canonical_closed.operand hcan (mem_operands hb)
    exact ih hcan' (scalar_operandsOf hcan hs hb)

end Panics

/-! ## Runs -/

/-- The graphs that operations on a new graph lead to. An insertion may fail. -/
inductive Run : ScalarGraph R → Prop
  | new : Run {}
  | insert {g : ScalarGraph R} (hg : Run g) {e : Expr R} (hs : e.isScalar) :
      Run ((ScalarGraph.insert e).run.run g).2
  | pushTarget {g : ScalarGraph R} (hg : Run g) {i : NodeId} (hi : i < g.size) :
      Run (g.pushTarget i)
  | setStatus {g g' : ScalarGraph R} (hg : Run g) {i : NodeId} {s : NodeStatus}
      (h : g.setStatus i s = .ok g') : Run g'
  | setTerminal {g g' : ScalarGraph R} (hg : Run g) {i : NodeId} {m : ModifiedTerminal R}
      (h : g.setTerminal i m = .ok g') : Run g'
  | setTable {g g' : ScalarGraph R} (hg : Run g) {i : NodeId} {t : TableReference}
      (h : g.setTable i t = .ok g') : Run g'

/-- Every operation keeps the invariant. -/
theorem Run.represented (h : Run g) : g.Represented := by
  induction h with
  | new => exact represented_empty
  | insert _ _ ih => exact (insert_outcome ih rfl).grows.represented
  | pushTarget _ hi ih => exact ih.pushTarget hi
  | setStatus _ h ih =>
    refine (reannotates_annotate ?_ h).represented ih
    exact fun _ => ⟨rfl, rfl⟩
  | setTerminal _ h ih =>
    refine (reannotates_annotate ?_ h).represented ih
    exact fun _ => ⟨rfl, rfl⟩
  | setTable _ h ih =>
    refine (reannotates_annotate ?_ h).represented ih
    exact fun _ => ⟨rfl, rfl⟩

/-- The contract of an insertion that ends with the outcome `r` and the graph `g'`. -/
structure Contract (g : ScalarGraph R) (e : Expr R) (r : Except (Error R) NodeId)
    (g' : ScalarGraph R) : Prop where
  represented : g'.Represented
  /-- The nodes that were there are unchanged, with what is noted about them, and so are the
  targets. -/
  kept : g.Extends g'
  /-- An expression that is present is found, and the graph is left alone. -/
  found : ∀ i, g.lookup e = some i → r = .ok i ∧ g' = g
  /-- The node that is returned is found under the expression afterwards. -/
  returned : ∀ i, r = .ok i → g'.lookup e = some i
  /-- A failure is no panic: some part of the expression has no place in a graph. -/
  failed : ∀ err, r = .error err → ∃ a, Part a e ∧ operandsOf a = [] ∧
    a.isModifiedTerminal = false ∧ err = .unexpectedNode a
  /-- New nodes hold parts of the expression, and nothing is noted about them. -/
  appended : ∀ (i : NodeId) (n : Node R), g.size ≤ i → g'.nodes[i]? = some n →
    Part n.expr e ∧ n.Unnoted
  /-- After a failure, the expression itself is not among them. -/
  operandsOnly : ∀ err, r = .error err → ∀ (i : NodeId) (n : Node R), g.size ≤ i →
    g'.nodes[i]? = some n → n.expr ≠ e

/-- **The graph keeps its representation invariant over every run, and insertion keeps its
contract.** -/
theorem run_insert [Scalar R] (hg : Run g) :
    g.Represented ∧ ∀ e, e.Obtained → e.isScalar →
      g.Contract e ((insert e).run.run g).1 ((insert e).run.run g).2 := by
  have hrep := hg.represented
  refine ⟨hrep, fun e he hs => ?_⟩
  generalize hend : (insert e).run.run g = end'
  obtain ⟨r, g'⟩ := end'
  have hout : g.Outcome e r g' := insert_outcome hrep hend
  -- a node past the end is a new one
  have hnew : ∀ {i : NodeId} {n : Node R}, g.size ≤ i → g.nodes[i]? ≠ some n := by
    intro i n hi hn
    have hlt := (Array.getElem?_eq_some_iff.mp hn).1
    exact absurd hlt (Nat.not_lt.mpr hi)
  refine ⟨hout.grows.represented, hout.grows.grown, fun i hi => ?_, fun i heq => ?_,
    fun err heq => ?_, fun i n hi hn => ?_, fun err heq i n hi hn => ?_⟩
  · -- the other ends of an insertion are those of a new expression
    have hfound : Ends (insert e) g (.ok i) g := by
      rw [insert_eq, ends_get, hi]
      exact ends_pure.mpr ⟨rfl, rfl⟩
    have hsame := hend.symm.trans hfound
    cases hsame
    exact ⟨rfl, rfl⟩
  · exact (hout.grows.represented.lookup e i).mpr (hout.node i heq)
  -- no part of a scalar is rejected for its shape
  · obtain ⟨-, a, ha, hreject⟩ := hout.failed err heq
    cases hreject with
    | notScalar hns =>
      rw [scalar_part (Expr.obtained_canonical he) hs ha] at hns
      cases hns
    | unexpected ho ht => exact ⟨a, ha, ho, ht, rfl⟩
  -- what is appended are parts of the expression
  · rcases hout.grows.appended i n hn with hold | hpart
    · exact absurd hold (hnew hi)
    · exact hpart
  -- and if it fails, proper parts
  · rcases (hout.failed err heq).1.appended i n hn with hold | hpart
    · exact absurd hold (hnew hi)
    · exact hpart.1.ne

/-! ### A sum that is left half inserted -/

namespace HalfInserted

/-- A scalar function. -/
def function : Expr ℚ :=
  .coefficient ⟨5, ⟨0, 1, []⟩, .ofCell .triangle 0⟩

/-- The function and a sum over an index, which has no place in a graph. -/
def total : Expr ℚ :=
  .binary .sum function (Expr.Contraction.contraction 2)

/-- The sum over the index is a normal form. -/
theorem obtained_total : Expr.Obtained total := by
  have hnormal : Expr.normalize (Expr.Contraction.integrand 2) =
      .ok (Expr.Contraction.contraction 2) :=
    Expr.Contraction.normalize_integrand (by with_unfolding_all rfl) (by cbv) (by cbv)
  have hbuilt : Expr.Built (Expr.Contraction.integrand 2) :=
    Expr.Contraction.built_integrand (by cbv)
  have htotal : BinaryOp.apply .sum function (Expr.Contraction.contraction 2) = .ok total := by
    cbv
  exact .binary (.coefficient _) (.normalize hbuilt.obtained hnormal) htotal

/-- A new expression without a place in a graph is rejected. -/
theorem ends_unexpected {g : ScalarGraph ℚ} {e : Expr ℚ} (hnew : g.lookup e = none)
    (hs : e.isScalar) (ho : operandsOf e = []) (ht : e.isModifiedTerminal = false) :
    Ends (insert e) g (.error (.unexpectedNode e)) g := by
  have hplace : ¬(operandsOf e ≠ [] ∨ e.isModifiedTerminal) := by simp [ho, ht]
  rw [insert_eq, ends_get, hnew]
  simp only [if_pos hs, if_neg hplace]
  exact ends_bind.mpr (.inl ⟨_, ends_throw.mpr ⟨rfl, rfl⟩, rfl⟩)

/-- The function is inserted, and then the sum over the index fails. -/
theorem ends_total :
    Ends (insert total) {} (.error (.unexpectedNode (Expr.Contraction.contraction 2)))
      (({} : ScalarGraph ℚ).push function []) := by
  have hfunction : Ends (insert function) {} (.ok 0) (({} : ScalarGraph ℚ).push function []) :=
    insert_leaf (by simp [ScalarGraph.lookup]) (by cbv)
  have hnone : (({} : ScalarGraph ℚ).push function []).lookup
      (Expr.Contraction.contraction 2) = none := by
    have hne : function ≠ Expr.Contraction.contraction 2 := by
      intro heq
      cases heq
    simp [ScalarGraph.lookup, ScalarGraph.push, hne]
  have hsum := ends_unexpected hnone (by cbv) rfl rfl
  -- the second operand fails in the graph that the first one left
  have hoperands : Ends ([function, Expr.Contraction.contraction 2].mapM insert) {}
      (.error (.unexpectedNode (Expr.Contraction.contraction 2)))
      (({} : ScalarGraph ℚ).push function []) := by
    simp only [List.mapM_cons, List.mapM_nil]
    refine ends_bind.mpr (.inr ⟨0, _, hfunction, ?_⟩)
    exact ends_bind.mpr (.inl ⟨_, ends_bind.mpr (.inl ⟨_, hsum, rfl⟩), rfl⟩)
  have hnew : ({} : ScalarGraph ℚ).lookup total = none := by simp [ScalarGraph.lookup]
  have hscalar : total.isScalar := by cbv
  have hplace : operandsOf total ≠ [] ∨ total.isModifiedTerminal := .inl (List.cons_ne_nil _ _)
  rw [insert_eq, ends_get, hnew]
  simp only [if_pos hscalar, if_pos hplace]
  exact ends_bind.mpr (.inl ⟨_, hoperands, rfl⟩)

end HalfInserted

/-- The failed insertion has left the function behind, and with it a consistent graph. -/
theorem run_insert_halfInserted :
    Ends (insert HalfInserted.total) {}
        (.error (.unexpectedNode (Expr.Contraction.contraction 2)))
        (({} : ScalarGraph ℚ).push HalfInserted.function []) ∧
      ({} : ScalarGraph ℚ).Contract HalfInserted.total
        (.error (.unexpectedNode (Expr.Contraction.contraction 2)))
        (({} : ScalarGraph ℚ).push HalfInserted.function []) := by
  have hend := HalfInserted.ends_total
  have hcontract := (run_insert Run.new).2 HalfInserted.total
    HalfInserted.obtained_total (by cbv)
  rw [show (insert HalfInserted.total).run.run {} = _ from hend] at hcontract
  exact ⟨hend, hcontract⟩

end ScalarGraph

end WeakForm
