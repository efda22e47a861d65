import WeakForm.Expr.Replacement
import WeakForm.Expr.Size

/-!
# What a replacement comes to

A replacement may have an effect on every node that it decides on. It keeps a table of what it
has decided, so an expression with shared parts is not walked as the tree that it stands for: a
node that occurs in many places is decided on in the first of them, and left alone in the others.
The effects are then those of the walk through the whole tree with all but the first occurrence
of every node struck out, and the results are those of the replacement by recursion.

* `visits` — the nodes that the walk through the whole tree comes to;
* `Walks` — what a part of the walk comes to, whatever was decided before;
* `replaceNodesM_eq` — the effects and the result of a replacement;
* `replaceNodes_eq_replace` — the replacement by a function.
-/

namespace WeakForm.Expr

variable {R : Type}

/-! ## The walk through the whole tree -/

mutual

/-- The nodes that a replacement by `g` comes to, from the root down and in the order of operands,
each as often as it occurs. A node that is exchanged is not descended into. -/
def visits (g : Expr R → Option (Expr R)) (e : Expr R) : List (Expr R) :=
  match g e with
  | some _ => [e]
  | none =>
    match e with
    | leaf t => [leaf t]
    | unary op a => unary op a :: visits g a
    | binary op a b => binary op a b :: (visits g a ++ visits g b)
    | listTensor items => listTensor items :: visitsAll g items

/-- The nodes that the replacement comes to in a list of expressions. -/
def visitsAll (g : Expr R → Option (Expr R)) : List (Expr R) → List (Expr R)
  | [] => []
  | e :: es => visits g e ++ visitsAll g es

end

section Visits

variable {g : Expr R → Option (Expr R)} {a e r : Expr R}

/-- The visits of a list are those of its members. -/
theorem visitsAll_eq_flatMap (es : List (Expr R)) : visitsAll g es = es.flatMap (visits g) := by
  induction es with
  | nil => rw [visitsAll, List.flatMap_nil]
  | cons e es ih => rw [visitsAll, List.flatMap_cons, ih]

theorem visits_of_some (h : g e = some r) : visits g e = [e] := by
  rw [visits.eq_def, h]

/-- Below a node that stays, the walk comes to the operands, one after the other. -/
theorem visits_of_none (h : g e = none) : visits g e = e :: e.operands.flatMap (visits g) := by
  cases e with
  | leaf t => rw [visits, h, operands, List.flatMap_nil]
  | unary op a => rw [visits, h, operands, List.flatMap_singleton]
  | binary op a b => simp [visits, h, operands]
  | listTensor items => rw [visits, h, operands, visitsAll_eq_flatMap]

/-- A walk visits the node it starts at. -/
theorem mem_visits_self (g : Expr R → Option (Expr R)) (e : Expr R) : e ∈ visits g e := by
  cases h : g e with
  | some r => simp [visits_of_some h]
  | none => simp [visits_of_none h]

/-- Induction on expressions, whatever the kind of their roots. -/
theorem induct_operands {motive : Expr R → Prop}
    (h : ∀ e, (∀ a ∈ e.operands, motive a) → motive e) (e : Expr R) : motive e := by
  induction hn : e.size using Nat.strongRecOn generalizing e with
  | ind n ih =>
    subst hn
    exact h e fun a ha => ih a.size (size_lt_of_mem_operands ha) a rfl

/-- The walk comes to no node that is larger than the expression. -/
theorem size_le_of_mem_visits (h : a ∈ visits g e) : a.size ≤ e.size := by
  induction e using induct_operands with
  | h e ih =>
    cases hg : g e with
    | some r =>
      rw [visits_of_some hg, List.mem_singleton] at h
      exact Nat.le_of_eq (congrArg size h)
    | none =>
      rw [visits_of_none hg, List.mem_cons, List.mem_flatMap] at h
      obtain rfl | ⟨b, hb, h⟩ := h
      · exact Nat.le_refl _
      -- A visit below an operand is no larger than the operand.
      · have hlt := size_lt_of_mem_operands hb
        have hle := ih b hb h
        omega

/-- The walk does not come back to a node from below. -/
theorem not_mem_visits_operands (e : Expr R) : e ∉ e.operands.flatMap (visits g) := by
  intro h
  obtain ⟨a, ha, h⟩ := List.mem_flatMap.mp h
  have hlt := size_lt_of_mem_operands ha
  have hle := size_le_of_mem_visits h
  omega

end Visits

/-! ## Parts of the walk -/

variable [DecidableEq R]

/-- The nodes that were not decided before, each once. -/
def undecided (done : Decisions R) (nodes : List (Expr R)) : List (Expr R) :=
  (nodes.filter (· ∉ done)).eraseDups

section Undecided

variable {done done' : Decisions R} {e : Expr R} {nodes nodes' : List (Expr R)}

theorem undecided_empty (nodes : List (Expr R)) : undecided ∅ nodes = nodes.eraseDups := by
  rw [undecided, List.filter_eq_self.mpr (by simp)]

theorem undecided_of_forall (h : ∀ a ∈ nodes, a ∈ done) : undecided done nodes = [] := by
  rw [undecided, List.filter_eq_nil_iff.mpr (by simpa using h), List.eraseDups_nil]

/-- A new node comes before what is undecided of the others. -/
theorem undecided_cons (he : e ∉ done) (hnodes : e ∉ nodes) :
    undecided done (e :: nodes) = e :: undecided done nodes := by
  rw [undecided, List.filter_cons_of_pos (by simpa using he), List.eraseDups_cons, undecided]
  congr 2
  -- the node does not occur again
  refine List.filter_eq_self.mpr fun a ha => ?_
  have hne : a ≠ e := fun heq => hnodes (heq ▸ (List.mem_filter.mp ha).1)
  simpa using hne

/-- What is undecided in two parts of the walk is undecided in the first, or else in the second
after the first was decided. -/
theorem undecided_append (h : ∀ a, a ∈ done' ↔ a ∈ done ∨ a ∈ nodes) :
    undecided done (nodes ++ nodes') = undecided done nodes ++ undecided done' nodes' := by
  rw [undecided, List.filter_append, List.eraseDups_append, undecided, undecided]
  congr 2
  -- what the second part loses are the nodes of the first that are new
  rw [List.removeAll, List.filter_filter]
  refine List.filter_congr fun a _ => ?_
  by_cases hd : a ∈ done <;> by_cases hn : a ∈ nodes <;> simp [h, hd, hn]

end Undecided

variable [Scalar R] {m : Type → Type} [Monad m] [LawfulMonad m] {α β : Type}
  {g : Expr R → Option (Expr R)} {visit : Expr R → m PUnit} {e : Expr R} {nodes : List (Expr R)}

/-- A table of decisions on all nodes that the walk comes to below the nodes in it. -/
structure Recorded (g : Expr R → Option (Expr R)) (done : Decisions R) : Prop where
  result : ∀ a r, done[a]? = some r → r = replace g a
  below : ∀ a ∈ done, ∀ b ∈ visits g a, b ∈ done

theorem recorded_empty : Recorded g ∅ where
  result := by simp
  below := by simp

/-- A node can be recorded when all nodes below it are. -/
theorem Recorded.insert {done : Decisions R} (h : Recorded g done)
    (hbelow : ∀ b ∈ visits g e, b = e ∨ b ∈ done) : Recorded g (done.insert e (replace g e)) where
  result a r ha := by
    rw [Std.HashMap.getElem?_insert] at ha
    split at ha
    · next heq =>
      rw [← eq_of_beq heq]
      exact (Option.some.inj ha).symm
    · exact h.result a r ha
  below a ha b hb := by
    rw [Std.HashMap.mem_insert, beq_iff_eq] at ha ⊢
    -- The new entry's visits were recorded before it or are the entry itself.
    rcases ha with rfl | ha
    · exact (hbelow b hb).imp_left Eq.symm
    · exact .inr (h.below a ha b hb)

/-- A part of the walk that comes to the given nodes, and to the given result. Its effects are
those of the nodes that were not decided before. -/
def Walks (g : Expr R → Option (Expr R)) (visit : Expr R → m PUnit)
    (walk : StateT (Decisions R) m α) (nodes : List (Expr R)) (result : α) : Prop :=
  ∀ done, Recorded g done → ∃ done', Recorded g done' ∧
    (∀ a, a ∈ done' ↔ a ∈ done ∨ a ∈ nodes) ∧
    walk.run done = (do forM (undecided done nodes) visit; return (result, done'))

theorem walks_pure (result : α) : Walks g visit (pure result) [] result := by
  intro done hdone
  refine ⟨done, hdone, by simp, ?_⟩
  simp [undecided]

/-- One part of the walk after the other. -/
theorem Walks.bind {walk : StateT (Decisions R) m α} {next : α → StateT (Decisions R) m β}
    {nodes' : List (Expr R)} {a : α} {b : β} (h : Walks g visit walk nodes a)
    (hnext : Walks g visit (next a) nodes' b) :
    Walks g visit (walk >>= next) (nodes ++ nodes') b := by
  intro done hdone
  obtain ⟨done₁, hdone₁, hmem₁, hrun₁⟩ := h done hdone
  obtain ⟨done₂, hdone₂, hmem₂, hrun₂⟩ := hnext done₁ hdone₁
  refine ⟨done₂, hdone₂, fun a => ?_, ?_⟩
  · rw [hmem₂, hmem₁, List.mem_append, or_assoc]
  · rw [StateT.run_bind, hrun₁, undecided_append hmem₁, List.forM_append]
    simp [hrun₂]

/-- What is made of a result has no effects. -/
theorem Walks.map {walk : StateT (Decisions R) m α} {a : α} (h : Walks g visit walk nodes a)
    (f : α → β) : Walks g visit (do return f (← walk)) nodes (f a) := by
  have hpure : Walks g visit (do return f (← walk)) (nodes ++ []) (f a) :=
    h.bind (walks_pure (f a))
  rwa [List.append_nil] at hpure

/-- A node is decided on, and what follows comes to the nodes below it, unless all of this was
done before. -/
theorem Walks.decideOnce {next : Option (Expr R) → StateT (Decisions R) m (Checked R (Expr R))}
    (h : Walks g visit (next (g e)) nodes (replace g e)) (hnodes : visits g e = e :: nodes)
    (he : e ∉ nodes) :
    Walks g visit
      (Expr.decideOnce e ((liftM (do visit e; return g e : m (Option (Expr R)))) >>= next))
      (visits g e) (replace g e) := by
  intro done hdone
  cases hfound : done[e]? with
  | some r =>
    -- the nodes below were decided on when the table got the node
    have hmem : e ∈ done := by
      rw [← Std.HashMap.isSome_getElem?_iff_mem, hfound]
      rfl
    have hbelow := hdone.below e hmem
    refine ⟨done, hdone, fun a => ⟨Or.inl, fun ha => ha.elim id (hbelow a)⟩, ?_⟩
    rw [undecided_of_forall hbelow, ← hdone.result e r hfound]
    simp [Expr.decideOnce, hfound]
  | none =>
    -- the node is new, so it is decided on
    have hnew : e ∉ done := by
      rw [← Std.HashMap.isSome_getElem?_iff_mem, hfound]
      simp
    obtain ⟨done', hdone', hmem, hrun⟩ := h done hdone
    have hbelow : ∀ b ∈ visits g e, b = e ∨ b ∈ done' := by
      intro b hb
      rw [hnodes, List.mem_cons] at hb
      exact hb.imp_right fun hb => (hmem b).mpr (.inr hb)
    -- then the table gets the node as well
    refine ⟨done'.insert e (replace g e), hdone'.insert hbelow, fun a => ?_, ?_⟩
    · rw [Std.HashMap.mem_insert, hmem, hnodes, List.mem_cons, beq_iff_eq, eq_comm, or_left_comm]
    · -- the node comes first, and the walk does not come back to it from below
      rw [hnodes, undecided_cons hnew he]
      simp [Expr.decideOnce, hfound, hrun]

/-- The walk through a list of expressions is that through one after the other. -/
theorem walks_replaceAllShared {es : List (Expr R)}
    (h : ∀ e ∈ es, Walks g visit (replaceShared (fun a => do visit a; return g a) e) (visits g e)
      (replace g e)) :
    Walks g visit (replaceAllShared (fun a => do visit a; return g a) es) (es.flatMap (visits g))
      (replaceAll g es) := by
  induction es with
  | nil =>
    rw [replaceAllShared, replaceAll]
    exact walks_pure _
  | cons e es ih =>
    rw [replaceAllShared, replaceAll, List.flatMap_cons]
    refine (h e List.mem_cons_self).bind ?_
    exact (ih fun e he => h e (List.mem_cons_of_mem _ he)).map _

/-- The walk does not go below a node that is exchanged. -/
theorem walks_replaceShared_of_some {r : Expr R} (hg : g e = some r) :
    Walks g visit (replaceShared (fun a => do visit a; return g a) e) (visits g e)
      (replace g e) := by
  rw [replaceShared.eq_def]
  refine Walks.decideOnce ?_ (visits_of_some hg) List.not_mem_nil
  rw [hg, replace.eq_def, hg]
  exact walks_pure _

/-- **The walk through an expression**, whatever was decided before it. -/
theorem walks_replaceShared (e : Expr R) :
    Walks g visit (replaceShared (fun a => do visit a; return g a) e) (visits g e)
      (replace g e) := by
  -- the nodes below a node that stays are those that the walks through its operands come to
  induction e with
  | leaf t =>
    rcases Option.eq_none_or_eq_some (g (leaf t)) with hg | ⟨r, hg⟩
    -- the leaf stays
    · rw [replaceShared]
      refine Walks.decideOnce ?_ (visits_of_none hg) (not_mem_visits_operands _)
      rw [hg, replace, hg]
      exact walks_pure _
    · exact walks_replaceShared_of_some hg
  | unary op a ih =>
    rcases Option.eq_none_or_eq_some (g (unary op a)) with hg | ⟨r, hg⟩
    -- the operator stays, so the walk goes on with its operand
    · rw [replaceShared]
      refine Walks.decideOnce ?_ (visits_of_none hg) (not_mem_visits_operands _)
      rw [hg, replace, hg, operands, List.flatMap_singleton]
      exact ih.map _
    · exact walks_replaceShared_of_some hg
  | binary op a b iha ihb =>
    rcases Option.eq_none_or_eq_some (g (binary op a b)) with hg | ⟨r, hg⟩
    -- the operator stays, so the walk goes on with both operands
    · rw [replaceShared]
      refine Walks.decideOnce ?_ (visits_of_none hg) (not_mem_visits_operands _)
      rw [hg, replace, hg, operands, List.flatMap_cons, List.flatMap_singleton]
      exact iha.bind (ihb.map _)
    · exact walks_replaceShared_of_some hg
  | listTensor items ih =>
    rcases Option.eq_none_or_eq_some (g (listTensor items)) with hg | ⟨r, hg⟩
    -- the list stays, so the walk goes on with its items
    · rw [replaceShared]
      refine Walks.decideOnce ?_ (visits_of_none hg) (not_mem_visits_operands _)
      rw [hg, replace, hg, operands]
      exact (walks_replaceAllShared ih).map _
    · exact walks_replaceShared_of_some hg

/-! ## Whole walks -/

/-- **The effects and the result of a replacement.** Decisions that do not depend on effects have
their effects on every node once, in the order in which the walk through the whole tree first
comes to the nodes, and the result is that of the replacement by recursion. -/
theorem replaceNodesM_eq (g : Expr R → Option (Expr R)) (visit : Expr R → m PUnit) (e : Expr R) :
    replaceNodesM (fun a => do visit a; return g a) e =
      (do forM (visits g e).eraseDups visit; return replace g e) := by
  have hwalk : Walks g visit _ (visits g e) (replace g e) := walks_replaceShared e
  obtain ⟨done, -, -, hrun⟩ := hwalk ∅ recorded_empty
  rw [replaceNodesM, StateT.run'_eq, hrun, undecided_empty]
  simp

/-- A replacement by a function is that by recursion. -/
theorem replaceNodes_eq_replace (f : Expr R → Option (Expr R)) (e : Expr R) :
    replaceNodes f e = replace f e := by
  -- a function decides without effects
  exact replaceNodesM_eq f (fun _ => (pure ⟨⟩ : Id PUnit)) e

end WeakForm.Expr
