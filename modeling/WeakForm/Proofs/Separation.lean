import WeakForm.Proofs.Balancing
import WeakForm.Proofs.PassRuns
import WeakForm.Proofs.Renamings

/-!
# When normalization captures no index

Whether a renaming of the pass captures an index depends on what the pass has made before.
One condition on the integrand itself is enough: no index of an indexing is bound within
what is indexed. It is kept by every step, since no step binds an index that was not bound,
and what a renaming puts in comes from an indexing around the renamed expression.

* `Uncaptured` — no renaming of the pass captures an index;
* `Binds`, `Separated` — the indices bound within an expression, and the condition;
* `Within` — what is separated and binds no more indices than another expression;
* `rename_within`, `normalForm_within` — renaming and the pass stay within;
* `uncaptured_of_separated` — the condition is enough.
-/

namespace WeakForm.Expr

variable {R : Type} {ρ : Renaming} {op : UnaryOp} {a a' b b' e r : Expr R} {i j : IndexId}
  {is : List Index}

/-- No renaming that the pass makes on its way through the expression captures an index. -/
inductive Uncaptured [Scalar R] [DecidableEq R] : Expr R → Prop
  | chain {e : Expr R} (h : e.isModifiedTerminal) : Uncaptured e
  | unary {op : UnaryOp} {a : Expr R} (hop : op.indices? = none) (ha : Uncaptured a) :
      Uncaptured (unary op a)
  | indexed {is : List Index} {a : Expr R} (ha : Uncaptured a)
      (hbody : ∀ ids body, normalForm a = .ok (.unary (.componentTensor ids) body) →
        CaptureFree (ids.zip is) body)
      (hnext : ∀ a' b, normalForm a = .ok a' → reduced? a' is = some (.ok b) → Uncaptured b) :
      Uncaptured (unary (.indexed is) a)
  | binary {op : BinaryOp} {a b : Expr R} (ha : Uncaptured a) (hb : Uncaptured b) :
      Uncaptured (binary op a b)
  | listTensor {items : List (Expr R)} (hi : ∀ item ∈ items, Uncaptured item) :
      Uncaptured (listTensor items)

/-! ## Bound indices -/

/-- An operator within the expression binds the index. -/
inductive Binds : Expr R → IndexId → Prop
  | here {op : UnaryOp} {a : Expr R} {i : IndexId} (h : i ∈ op.bound) : Binds (unary op a) i
  | inside {op : UnaryOp} {a : Expr R} {i : IndexId} (h : Binds a i) : Binds (unary op a) i
  | left {op : BinaryOp} {a b : Expr R} {i : IndexId} (h : Binds a i) : Binds (binary op a b) i
  | right {op : BinaryOp} {a b : Expr R} {i : IndexId} (h : Binds b i) : Binds (binary op a b) i
  | item {items : List (Expr R)} {item : Expr R} {i : IndexId} (hmem : item ∈ items)
      (h : Binds item i) : Binds (listTensor items) i

/-- The indices of an indexing are not bound by the expression. -/
def Apart (is : List Index) (a : Expr R) : Prop :=
  ∀ j, .free j ∈ is → ¬Binds a j

/-- No index of an indexing is bound within what is indexed. -/
inductive Separated : Expr R → Prop
  | leaf {t : Terminal R} : Separated (leaf t)
  | unary {op : UnaryOp} {a : Expr R} (h : ∀ is, op = .indexed is → Apart is a)
      (ha : Separated a) : Separated (unary op a)
  | binary {op : BinaryOp} {a b : Expr R} (ha : Separated a) (hb : Separated b) :
      Separated (binary op a b)
  | listTensor {items : List (Expr R)} (hi : ∀ item ∈ items, Separated item) :
      Separated (listTensor items)

theorem not_binds_leaf (t : Terminal R) (i : IndexId) : ¬Binds (leaf t) i := by
  intro h
  cases h

/-- A chain binds nothing. -/
theorem not_binds_chain (hm : e.isModifiedTerminal) (i : IndexId) : ¬Binds e i := by
  intro h
  induction h with
  -- a modifier binds nothing
  | here h =>
    rw [isModifiedTerminal, Bool.and_eq_true] at hm
    rw [UnaryOp.bound_of_isModifier hm.1] at h
    cases h
  | inside h ih =>
    rw [isModifiedTerminal, Bool.and_eq_true] at hm
    exact ih hm.2
  | left | right | item => cases hm

/-- A chain is separated. -/
theorem separated_chain (hm : e.isModifiedTerminal) : Separated e := by
  induction e with
  | leaf t => exact .leaf
  | unary op a ih =>
    rw [isModifiedTerminal, Bool.and_eq_true] at hm
    exact .unary (fun _ _ j _ => not_binds_chain hm.2 j) (ih hm.2)
  | binary | listTensor => cases hm

/-! ## What is made of an expression -/

/-- A separated expression that binds no more indices than another expression. -/
structure Within (e r : Expr R) : Prop where
  separated : Separated r
  binds : ∀ i, Binds r i → Binds e i

theorem Within.refl (h : Separated e) : Within e e :=
  ⟨h, fun _ h => h⟩

theorem Within.trans (h : Within a b) (h' : Within b r) : Within a r :=
  ⟨h'.separated, fun i hi => h.binds i (h'.binds i hi)⟩

theorem within_leaf (e : Expr R) (t : Terminal R) : Within e (leaf t) :=
  ⟨.leaf, fun i hi => absurd hi (not_binds_leaf t i)⟩

theorem within_chain (e : Expr R) (hm : r.isModifiedTerminal) : Within e r :=
  ⟨separated_chain hm, fun i hi => absurd hi (not_binds_chain hm i)⟩

/-- What lies within the operand lies within the node. -/
theorem Within.unary (h : Within a r) : Within (unary op a) r :=
  ⟨h.separated, fun i hi => .inside (h.binds i hi)⟩

/-- What stands apart from an expression stands apart from what is within it. -/
theorem Apart.within (h : Apart is a) (ha : Within a a') : Apart is a' :=
  fun j hj hb => h j hj (ha.binds j hb)

section Build

variable [Scalar R]

/-- An operator that binds the same indices, over an operand that lies within. -/
theorem within_unary {op' : UnaryOp} (hbound : op'.bound = op.bound)
    (h : ∀ is, op' = .indexed is → Apart is a) (ha : Within a a') (hr : op'.apply a' = .ok r) :
    Within (unary op a) r := by
  rcases unary_outcome hr with rfl | hc | rfl
  · exact ha.unary
  · obtain ⟨t, rfl⟩ := leaf_of_isConstantValue hc
    exact within_leaf _ t
  · refine ⟨.unary (fun is heq => (h is heq).within ha) ha.separated, fun i hi => ?_⟩
    cases hi with
    | here hi => exact .here (by rwa [← hbound])
    | inside hi => exact .inside (ha.binds i hi)

/-- A binary operator stays within the one on the old operands. -/
theorem within_binary {op : BinaryOp} (ha : Within a a') (hb : Within b b')
    (hr : op.apply a' b' = .ok r) : Within (binary op a b) r := by
  have hleft : Within (binary op a b) a' := ⟨ha.separated, fun i hi => .left (ha.binds i hi)⟩
  have hright : Within (binary op a b) b' := ⟨hb.separated, fun i hi => .right (hb.binds i hi)⟩
  -- Folding keeps an operand or leaves a literal; only the last case builds a node.
  rcases binary_outcome hr with rfl | rfl | hc | rfl
  · exact hleft
  · exact hright
  · obtain ⟨t, rfl⟩ := leaf_of_isConstantValue hc
    exact within_leaf _ t
  · refine ⟨.binary ha.separated hb.separated, fun i hi => ?_⟩
    cases hi with
    | left hi => exact hleft.binds i hi
    | right hi => exact hright.binds i hi

/-- A list stays within the list of the old items. -/
theorem within_stack {items items' : List (Expr R)} (hi : List.Forall₂ Within items items')
    (hr : stack items' = .ok r) : Within (listTensor items) r := by
  obtain ⟨first, rest, heq, -, hr⟩ := stack_built hr
  cases hr with
  | zero => exact within_leaf _ _
  | node =>
    rw [← heq]
    refine ⟨.listTensor fun item' hm => ?_, fun i hb => ?_⟩
    · obtain ⟨item, -, h⟩ := exists_left_of_mem hi hm
      exact h.separated
    · cases hb with
      | item hm hb =>
        obtain ⟨item, hmem, h⟩ := exists_left_of_mem hi hm
        exact .item hmem (h.binds i hb)

/-! ## Renaming -/

omit [Scalar R] in
/-- Inside an operator, only replacements from outside are made. -/
theorem find?_of_inside {k : Index} (h : (ρ.inside op).find? i = some k) : ρ.find? i = some k := by
  rw [Renaming.inside_eq] at h
  by_cases hi : i ∈ op.bound
  · rw [Renaming.find?_without_of_mem hi] at h
    cases h
  · rwa [Renaming.find?_without_of_not_mem hi] at h

/-- A terminal is renamed to a terminal. -/
theorem rename_leaf {t : Terminal R} (h : rename ρ (leaf t) = .ok r) : ∃ s, r = leaf s := by
  rw [rename.eq_def] at h
  by_cases htouch : ρ.touches (leaf t : Expr R).free
  · rw [if_pos htouch] at h
    cases t with
    -- a zero is rebuilt over the renamed indices
    | zero shape free =>
      have hzero : zeroOver shape (ρ.onFree free) = .ok r := h
      unfold zeroOver at hzero
      split at hzero
      · cases hzero
        exact ⟨_, rfl⟩
      · cases hzero
    | argument | coefficient | geometry | literal =>
      cases h
      exact ⟨_, rfl⟩
  · rw [if_neg htouch] at h
    cases h
    exact ⟨_, rfl⟩

omit [Scalar R] in
/-- Where no replacement is bound, none is captured. -/
theorem captureFree_of_not_binds (h : ∀ i j, ρ.find? i = some (.free j) → ¬Binds e j) :
    CaptureFree ρ e := by
  -- The renaming shrinks below a binder, so the induction is over all of them.
  induction e generalizing ρ with
  | leaf t => exact .leaf
  | unary op a ih =>
    refine .unary (fun i _ _ j hj hfind => h i j hfind (.here hj)) (ih fun i j hfind hb => ?_)
    exact h i j (find?_of_inside hfind) (.inside hb)
  | binary op a b iha ihb =>
    exact .binary (iha fun i j hfind hb => h i j hfind (.left hb))
      (ihb fun i j hfind hb => h i j hfind (.right hb))
  | listTensor items ih =>
    exact .listTensor fun item hm => ih item hm fun i j hfind hb => h i j hfind (.item hm hb)

omit [Scalar R] in
/-- The indices of a renamed indexing are old ones and replacements. -/
theorem apart_onIndex (h : ∀ i j, ρ.find? i = some (.free j) → ¬Binds a j) (his : Apart is a) :
    Apart (is.map ρ.onIndex) a := by
  intro j hj
  obtain ⟨k, hk, heq⟩ := List.mem_map.mp hj
  cases k with
  -- a fixed entry is no index
  | fixed p => cases heq
  | free i =>
    rw [Renaming.onIndex] at heq
    cases hfind : ρ.find? i with
    | none =>
      rw [hfind] at heq
      cases heq
      exact his j hk
    -- the index put in is not bound inside
    | some l =>
      rw [hfind] at heq
      obtain rfl : l = .free j := heq
      exact h i j hfind

/-- **Renaming stays within the expression**, where no replacement is bound. -/
theorem rename_within (hsep : Separated e)
    (h : ∀ i j, ρ.find? i = some (.free j) → ¬Binds e j) (hr : rename ρ e = .ok r) :
    Within e r := by
  -- Below a binder the renaming loses the bound names: the induction is over every renaming.
  induction e generalizing ρ r with
  | leaf t =>
    obtain ⟨s, rfl⟩ := rename_leaf hr
    exact within_leaf _ s
  | unary op a ih =>
    rw [rename.eq_def] at hr
    split at hr
    · obtain ⟨a', ha, hr⟩ := bind_eq_ok.mp hr
      cases hsep with
      | unary his hsep =>
        have hinside : ∀ i j, (ρ.inside op).find? i = some (.free j) → ¬Binds a j :=
          fun i j hfind hb => h i j (find?_of_inside hfind) (.inside hb)
        -- only an indexing has entries that could be bound inside
        refine within_unary (bound_onOp ρ op) (fun is heq => ?_) (ih hsep hinside ha) hr
        cases op with
        | indexed is' =>
          cases heq
          exact apart_onIndex (fun i j hfind hb => h i j hfind (.inside hb)) (his is' rfl)
        | math | abs | indexSum | componentTensor | restricted | grad | referenceGrad
          | spatialDerivative | averaged | labelled => cases heq
    · cases hr
      -- where no free index is touched, the expression stays
      exact .refl hsep
  | binary op a b iha ihb =>
    rw [rename.eq_def] at hr
    split at hr
    · obtain ⟨a', ha, hr⟩ := bind_eq_ok.mp hr
      obtain ⟨b', hb, hr⟩ := bind_eq_ok.mp hr
      cases hsep with
      | binary hsa hsb =>
        exact within_binary (iha hsa (fun i j hfind hb => h i j hfind (.left hb)) ha)
          (ihb hsb (fun i j hfind hb => h i j hfind (.right hb)) hb) hr
    · cases hr
      exact .refl hsep
  | listTensor items ih =>
    rw [rename.eq_def] at hr
    split at hr
    · obtain ⟨items', hitems, hr⟩ := bind_eq_ok.mp hr
      rw [renameAll_eq_mapM, mapM_eq_ok] at hitems
      cases hsep with
      | listTensor hsep =>
        refine within_stack (forall₂_imp_of_mem hitems fun item hm item' hitem => ?_) hr
        exact ih item hm (hsep item hm) (fun i j hfind hb => h i j hfind (.item hm hb)) hitem
    · cases hr
      exact .refl hsep

end Build

/-! ## The pass -/

/-- A replacement of paired indices is one of the second ones. -/
theorem mem_of_find?_zip {ids : List IndexId} {k : Index}
    (h : Renaming.find? (ids.zip is) i = some k) : k ∈ is := by
  obtain ⟨before, after, heq, -⟩ := List.lookup_eq_some_iff.mp h
  have hmem : (i, k) ∈ ids.zip is := by
    rw [heq]
    exact List.mem_append_right _ List.mem_cons_self
  exact (List.of_mem_zip hmem).2

section Pass

variable [Scalar R] [DecidableEq R]

omit [DecidableEq R] in
/-- Finishing a node stays within it. -/
theorem finish_within (hsep : Separated e) (h : finish e = .ok r) : Within e r := by
  unfold finish at h
  split at h
  · next hc =>
    rw [Bool.and_eq_true] at hc
    exact within_chain e (chain_balance hc.2 h)
  · cases h
    exact .refl hsep

/-- What an indexed normal form reduces to lies within what is indexed. -/
theorem reduced_within (hsep : Separated a) (his : Apart is a)
    (h : reduced? a is = some (.ok b)) : Within a b := by
  rcases reduced?_built h with ⟨ids, body, rfl, hr⟩ | ⟨items, rfl, hr⟩
  · -- no index that is put in is bound inside
    have hbody : ∀ i j, Renaming.find? (ids.zip is) i = some (.free j) → ¬Binds body j := by
      intro i j hfind hb
      have hmem : (.free j) ∈ is := mem_of_find?_zip hfind
      exact his j hmem (.inside hb)
    cases hsep with
    | unary _ hsep => exact (rename_within hsep hbody hr).unary
  -- an item, indexed by what is left of the indices
  · obtain ⟨p, rest, item, rfl, hitem, hindex⟩ := selectItem_built hr
    have hmem := List.mem_of_getElem? hitem
    cases hsep with
    | listTensor hsep =>
      have hrest : Apart rest item := fun j hj hb =>
        his j (List.mem_cons_of_mem _ hj) (.item hmem hb)
      have hitem : Within (unary (.indexed rest) item) b :=
        within_unary rfl (fun is heq => by cases heq; exact hrest) (.refl (hsep item hmem)) hindex
      refine ⟨hitem.separated, fun i hi => ?_⟩
      cases hitem.binds i hi with
      | here hi => cases hi
      | inside hi => exact .item hmem hi

/-- **The pass stays within the expression.** -/
theorem normalForm_within (hsep : Separated e) (h : normalForm e = .ok r) : Within e r := by
  have hrun := normalRun_of_normalForm h
  clear h
  induction hrun with
  -- a chain is balanced
  | chain hm h => exact within_chain _ (chain_balance hm h)
  | label _ ih =>
    cases hsep with
    | unary _ hsep => exact (ih hsep).unary
  -- any other operator is applied to the normal form of its operand
  | plain _ _ _ hc hr ih =>
    cases hsep with
    | unary his hsep =>
      have hnode := within_unary rfl his (ih hsep) hc
      exact hnode.trans (finish_within hnode.separated hr)
  | reduced _ hb _ iha ihr =>
    -- what the indexing is reduced to lies within the operand, and is separated again
    cases hsep with
    | unary his hsep =>
      have ha := iha hsep
      have hb := ha.trans (reduced_within ha.separated ((his _ rfl).within ha) hb)
      exact (hb.trans (ihr hb.separated)).unary
  -- the indexing is not reduced
  | indexed _ _ hr ih =>
    cases hsep with
    | unary his hsep =>
      obtain ⟨b, hb, hr⟩ := bind_eq_ok.mp hr
      have hnode := within_unary rfl his (ih hsep) hb
      split at hr
      · cases hr
        exact hnode
      · exact hnode.trans (finish_within hnode.separated hr)
  | binary _ _ hc hr iha ihb =>
    cases hsep with
    | binary hsa hsb =>
      have hnode := within_binary (iha hsa) (ihb hsb) hc
      exact hnode.trans (finish_within hnode.separated hr)
  | stack hl _ hc hr ih =>
    cases hsep with
    | listTensor hsep =>
      have hitems := List.forall₂_iff_zip.mpr ⟨hl, fun {item item'} hm =>
        ih item item' hm (hsep item (List.of_mem_zip hm).1)⟩
      have hnode := within_stack hitems hc
      exact hnode.trans (finish_within hnode.separated hr)

/-- **A separated integrand is normalized without capture.** -/
theorem uncaptured_of_separated (hsep : Separated e) : Uncaptured e := by
  induction hn : e.size using Nat.strong_induction_on generalizing e with
  | _ n ih =>
  subst hn
  cases hsep with
  | leaf => exact .chain rfl
  | @unary op a his hsep =>
    have ha : Uncaptured a := ih a.size (by rw [size_unary]; omega) hsep rfl
    cases hop : op.indices? with
    | none => exact .unary hop ha
    -- only an indexing puts in indices
    | some is =>
      obtain rfl : op = .indexed is := by
        cases op <;> simp_all [UnaryOp.indices?]
      refine .indexed ha (fun ids body hbody => ?_) fun a' b ha' hreduced => ?_
      · -- the body binds what the operand binds
        have hwithin := normalForm_within hsep hbody
        refine captureFree_of_not_binds fun i j hfind hb => ?_
        have hmem : (.free j) ∈ is := mem_of_find?_zip hfind
        exact his is rfl j hmem (hwithin.binds j (.inside hb))
      -- what the indexing is reduced to is smaller and separated
      · have hwithin := normalForm_within hsep ha'
        have hb := reduced_within hwithin.separated ((his is rfl).within hwithin) hreduced
        have hsize := size_reduced?_lt hreduced ha'
        exact ih b.size (by rw [size_unary]; exact hsize) hb.separated rfl
  | @binary op a b hsa hsb =>
    exact .binary (ih a.size (by rw [size_binary]; omega) hsa rfl)
      (ih b.size (by rw [size_binary]; omega) hsb rfl)
  | @listTensor items hsep =>
    exact .listTensor fun item hm => ih item.size (size_lt_of_mem hm) (hsep item hm) rfl

end Pass

end WeakForm.Expr
