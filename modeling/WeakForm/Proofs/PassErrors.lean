import WeakForm.Proofs.EmptyAxes
import WeakForm.Proofs.Homogeneity
import WeakForm.Proofs.Plans

/-!
# Errors of the passes

Which errors a computation can end with is read off its parts: a sequence ends with an error of
one of its steps, and a pass over a list with that of an item. The passes on expressions and
graphs report how these are formed, what has no place in a graph, and what is not linear in the
arguments. Whatever they are given, none of them misses a table.

* `Raises`, `Building.FailsWith` — computations with errors of one kind only;
* `Error.OfGraphs` — the errors of passes on expressions and graphs;
* `scalarize_raises`, `ofTargets_raises`, `describeLeaves_raises`, `eliminateZeros_raises`,
  `factorize_raises`, `partitioned_raises` — the passes.
-/

namespace WeakForm

variable {R : Type} {α β : Type}

/-! ## Computations with errors of one kind -/

section Results

variable {ε : Type} {E : ε → Prop} {x : Except ε α} {f : α → Except ε β} {as : List α}

/-- Every error that the computation can end with is one of `E`. -/
def Raises (E : ε → Prop) (x : Except ε α) : Prop :=
  ∀ err, x = .error err → E err

theorem raises_ok (a : α) : Raises E (.ok a) :=
  nofun

theorem raises_error {err : ε} (h : E err) : Raises E (.error err : Except ε α) := by
  rintro _ ⟨⟩
  exact h

/-- A composition raises what its steps raise. -/
theorem Raises.bind (hx : Raises E x) (hf : ∀ a, x = .ok a → Raises E (f a)) :
    Raises E (x >>= f) := by
  intro err h
  rcases bind_eq_error.mp h with h | ⟨a, ha, h⟩
  · exact hx err h
  · exact hf a ha err h

/-- A step that is taken in one of two ways, before what follows. -/
theorem Raises.ite_bind {c : Prop} [Decidable c] {y : Except ε α} (hx : Raises E x)
    (hy : Raises E y) (hf : ∀ a, Raises E (f a)) :
    Raises E (if c then x >>= f else y >>= f) := by
  split
  · exact hx.bind fun a _ => hf a
  · exact hy.bind fun a _ => hf a

/-- A pass over a list raises what it raises on the items. -/
theorem raises_mapM (h : ∀ a ∈ as, Raises E (f a)) : Raises E (as.mapM f) := by
  intro err herr
  obtain ⟨a, ha, herr⟩ := exists_of_mapM_error herr
  exact h a ha err herr

/-- A pass that gives rows raises what it raises on the items. -/
theorem raises_flatMapM {f : α → Except ε (List β)} (h : ∀ a ∈ as, Raises E (f a)) :
    Raises E (as.flatMapM f) := by
  intro err herr
  obtain ⟨a, ha, herr⟩ := exists_of_flatMapM_error herr
  exact h a ha err herr

/-- A fold raises what its steps raise. -/
theorem raises_foldlM {f : β → α → Except ε β} (h : ∀ b, ∀ a ∈ as, Raises E (f b a)) (b : β) :
    Raises E (as.foldlM f b) := by
  induction as generalizing b with
  | nil => exact raises_ok b
  | cons a as ih =>
    rw [List.foldlM_cons]
    refine (h b a List.mem_cons_self).bind fun b' _ => ?_
    exact ih (fun b x hx => h b x (List.mem_cons_of_mem _ hx)) b'

/-- A loop raises what its steps raise. -/
theorem raises_forM {f : α → Except ε PUnit} (h : ∀ a ∈ as, Raises E (f a)) :
    Raises E (as.forM f) := by
  induction as with
  | nil => exact raises_ok _
  | cons a as ih =>
    rw [List.forM_eq_forM, List.forM_cons]
    exact (h a List.mem_cons_self).bind fun _ _ => ih fun x hx => h x (List.mem_cons_of_mem _ hx)

end Results

/-- The errors of passes on expressions and graphs. -/
inductive Error.OfGraphs : Error R → Prop
  | breach (b : Breach R) : OfGraphs (.breach b)
  | modifiers (fault : ModifierFault) (e : Expr R) : OfGraphs (.modifiers fault e)
  | unexpectedNode (e : Expr R) : OfGraphs (.unexpectedNode e)
  | degrees {err : Error R} (h : err.OfDegrees) : OfGraphs err
  | unclassified (e : Expr R) : OfGraphs (.unclassified e)

/-- A construction breaks a rule, or ends. -/
theorem raises_lift {E : Error R → Prop} (hE : ∀ b, E (.breach b)) (x : Checked R α) :
    Raises E (liftM x : Result R α) := by
  intro err h
  obtain ⟨b, -, rfl⟩ := lift_eq_error.mp h
  exact hE b

namespace Building

variable [DecidableEq R] {E : Error R → Prop} {m : Building R α} {f : α → Building R β}
  {as : List α}

/-- Every error that the computation can end with, on whatever graph it starts, is one of `E`. -/
def FailsWith (E : Error R → Prop) (m : Building R α) : Prop :=
  ∀ (g : ScalarGraph R) (err : Error R) (g' : ScalarGraph R), Fails m g err g' → E err

theorem failsWith_pure (a : α) : FailsWith E (pure a : Building R α) :=
  fun _ _ _ h => absurd h fails_pure

theorem failsWith_get : FailsWith E (get : Building R (ScalarGraph R)) :=
  fun _ _ _ h => absurd h fails_get

theorem failsWith_set (g : ScalarGraph R) : FailsWith E (set g : Building R PUnit) := by
  rintro g err g' ⟨⟩

theorem failsWith_modify (f : ScalarGraph R → ScalarGraph R) :
    FailsWith E (modify f : Building R PUnit) := by
  rintro g err g' ⟨⟩

theorem failsWith_throw {err : Error R} (h : E err) : FailsWith E (throw err : Building R α) := by
  rintro g _ _ ⟨⟩
  exact h

/-- After an error nothing else is run. -/
theorem failsWith_throw_bind {err : Error R} {f : α → Building R β} (h : E err) :
    FailsWith E (throw err >>= f) := by
  rintro g _ _ ⟨⟩
  exact h

/-- A result of the caller fails as the caller does. -/
theorem failsWith_ofExcept {x : Result R α} (hx : Raises E x) :
    FailsWith E (ofExcept x : Building R α) := by
  cases x with
  | ok a => exact failsWith_pure a
  | error err => exact failsWith_throw (hx err rfl)

/-- A construction fails by breaking a rule. -/
theorem failsWith_lift (hE : ∀ b, E (.breach b)) (x : Checked R α) :
    FailsWith E (liftM x : Building R α) := by
  cases x with
  | ok a => exact failsWith_pure a
  | error b => exact failsWith_throw (hE b)

/-- A composition fails as its steps do. -/
theorem FailsWith.bind (hm : FailsWith E m) (hf : ∀ a, FailsWith E (f a)) :
    FailsWith E (m >>= f) := by
  intro g err g' h
  rcases fails_bind.mp h with h | ⟨a, g₁, -, h⟩
  · exact hm g err g' h
  · exact hf a g₁ err g' h

/-- A fold fails as its steps do. -/
theorem failsWith_foldlM {f : β → α → Building R β} (h : ∀ b, ∀ a ∈ as, FailsWith E (f b a))
    (b : β) : FailsWith E (as.foldlM f b) := by
  induction as generalizing b with
  | nil => exact failsWith_pure b
  | cons a as ih =>
    rw [List.foldlM_cons]
    refine (h b a List.mem_cons_self).bind fun b' => ?_
    exact ih (fun b x hx => h b x (List.mem_cons_of_mem _ hx)) b'

/-- A loop fails as its steps do. -/
theorem failsWith_forM {f : α → Building R PUnit} (h : ∀ a ∈ as, FailsWith E (f a)) :
    FailsWith E (as.forM f) := by
  induction as with
  | nil => exact failsWith_pure _
  | cons a as ih =>
    rw [List.forM_eq_forM, List.forM_cons]
    exact (h a List.mem_cons_self).bind fun _ => ih fun x hx => h x (List.mem_cons_of_mem _ hx)

/-- A pass over a list fails as it does on the items. -/
theorem failsWith_mapM (h : ∀ a ∈ as, FailsWith E (f a)) : FailsWith E (as.mapM f) := by
  induction as with
  | nil => exact failsWith_pure _
  | cons a as ih =>
    rw [List.mapM_cons]
    refine (h a List.mem_cons_self).bind fun b => FailsWith.bind ?_ fun bs => failsWith_pure _
    exact ih fun x hx => h x (List.mem_cons_of_mem _ hx)

/-- A loop that keeps nothing from step to step. -/
theorem failsWith_forIn (h : ∀ a ∈ as, FailsWith E (f a)) :
    FailsWith E (forIn as PUnit.unit fun a _ => do
      let _ ← f a
      pure (ForInStep.yield PUnit.unit)) := by
  induction as with
  | nil => exact failsWith_pure _
  | cons a as ih =>
    rw [List.forIn_cons]
    refine ((h a List.mem_cons_self).bind fun _ => failsWith_pure _).bind fun step => ?_
    cases step with
    | done u => exact failsWith_pure u
    | yield u => exact ih fun x hx => h x (List.mem_cons_of_mem _ hx)

end Building

open Error Building ScalarGraph

/-- A construction as a step of a pass on graphs. -/
theorem raises_checked (x : Checked R α) : Raises OfGraphs (liftM x : Result R α) :=
  raises_lift .breach x

theorem failsWith_checked [DecidableEq R] (x : Checked R α) :
    FailsWith OfGraphs (liftM x : Building R α) :=
  failsWith_lift .breach x

/-! ## Scalarization -/

namespace Expr

variable {a b e : Expr R} {as bs : Array (Expr R)}

/-- Analysis reports a fault of the modifiers. -/
theorem analyse_raises (e : Expr R) : Raises OfGraphs e.analyse := by
  intro err h
  obtain ⟨fault, rfl⟩ := analyse_error h
  exact .modifiers fault e

/-- A place is within a list, or out of bounds. -/
theorem scalarAt_raises (as : Array (Expr R)) (k : Nat) : Raises OfGraphs (scalarAt as k) := by
  unfold scalarAt
  split
  · exact raises_ok _
  · exact raises_error (.breach _)

variable [Scalar R]

theorem productScalars_raises (a b : Expr R) (as bs : Array (Expr R)) :
    Raises OfGraphs (productScalars a b as bs) := by
  refine (raises_mapM fun place _ => ?_).bind fun _ _ => raises_ok _
  refine (scalarAt_raises as _).bind fun x _ => ?_
  exact (scalarAt_raises bs _).bind fun y _ => raises_checked _

theorem sumScalars_raises (i : IndexId) (a : Expr R) (as : Array (Expr R)) :
    Raises OfGraphs (sumScalars i a as) := by
  unfold sumScalars
  split
  · refine (raises_mapM fun place _ => ?_).bind fun _ _ => raises_ok _
    refine (scalarAt_raises as _).bind fun first _ => raises_foldlM (fun sum j _ => ?_) first
    exact (scalarAt_raises as _).bind fun s _ => raises_checked _
  · exact raises_error (.breach _)

omit [Scalar R] in
theorem indexedScalars_raises (is : List Index) (a : Expr R) (as : Array (Expr R)) :
    Raises OfGraphs (indexedScalars is a as) := by
  -- a source that is missing is a breach, and so is a place out of bounds
  refine (raises_mapM fun j _ => raises_checked _).bind fun axes _ => ?_
  refine (raises_mapM fun f _ => raises_checked _).bind fun indices _ => ?_
  exact (raises_mapM fun positions _ => scalarAt_raises as _).bind fun _ _ => raises_ok _

theorem eachScalar_raises (op : UnaryOp) (as : Array (Expr R)) :
    Raises OfGraphs (eachScalar op as) := by
  rw [eachScalar, Array.mapM_eq_mapM_toList]
  exact (raises_mapM fun _ _ => raises_checked _).bind fun _ _ => raises_ok _

theorem zipScalars_raises (op : BinaryOp) (as bs : Array (Expr R)) :
    Raises OfGraphs (zipScalars op as bs) := by
  dsimp only [zipScalars]
  -- two checks of the sizes, and then one entry per place
  split
  swap
  · exact raises_error (.breach _)
  split
  swap
  · exact raises_error (.breach _)
  refine (raises_mapM fun k _ => ?_).bind fun _ _ => raises_ok _
  refine (scalarAt_raises as _).bind fun x _ => ?_
  exact (scalarAt_raises bs _).bind fun y _ => raises_checked _

theorem unaryScalars_raises (op : UnaryOp) (a : Expr R) (as : Array (Expr R)) :
    Raises OfGraphs (unaryScalars op a as) := by
  cases op with
  | math f => exact eachScalar_raises _ as
  | abs => exact eachScalar_raises _ as
  | indexSum i => exact sumScalars_raises i a as
  | indexed is => exact indexedScalars_raises is a as
  | componentTensor | restricted | grad | referenceGrad | spatialDerivative | averaged
    | labelled => exact raises_error (.unexpectedNode _)

theorem binaryScalars_raises (op : BinaryOp) (a b : Expr R) (as bs : Array (Expr R)) :
    Raises OfGraphs (binaryScalars op a b as bs) := by
  cases op with
  | product => exact productScalars_raises a b as bs
  | sum | division | power => exact zipScalars_raises _ as bs

variable [DecidableEq R]

/-- The components of a terminal are built and described, or there is no descriptor. -/
theorem terminalScalars_raises (e : Expr R) : Raises OfGraphs (terminalScalars e) := by
  unfold terminalScalars
  split
  · exact raises_ok _
  · -- every component is built, and described as it stands
    refine (raises_mapM fun _ _ => raises_checked _).bind fun fixed _ => ?_
    refine Raises.bind (raises_flatMapM fun c _ => raises_mapM fun a _ => ?_) fun _ _ => raises_ok _
    refine (raises_checked _).bind fun s _ => (analyse_raises s).bind fun found _ => ?_
    cases found with
    | none => exact raises_error (.unexpectedNode e)
    | some m => exact raises_ok s

/-- Scalarization reports what has no components. -/
theorem scalarize_raises (e : Expr R) : Raises OfGraphs (scalarize e) := by
  induction e with
  | leaf t =>
    rw [scalarize_terminal rfl]
    exact terminalScalars_raises _
  | unary op a ih =>
    by_cases hm : (unary op a).isModifiedTerminal
    · rw [scalarize_terminal hm]
      exact terminalScalars_raises _
    · rw [Bool.not_eq_true] at hm
      by_cases hop : op.ByComponents
      · rw [scalarize_unary hop hm]
        exact ih.bind fun as _ => unaryScalars_raises op a as
      · rw [scalarize_rejected hop hm]
        exact raises_error (.unexpectedNode _)
  | binary op a b iha ihb =>
    rw [scalarize_binary]
    exact iha.bind fun as _ => ihb.bind fun bs _ => binaryScalars_raises op a b as bs
  | listTensor items =>
    rw [scalarize_listTensor]
    exact raises_error (.unexpectedNode _)

end Expr

/-! ## Graphs -/

namespace ScalarGraph

section Graphs

variable [DecidableEq R] {g : ScalarGraph R}

theorem failsWith_append (e : Expr R) (operands : List NodeId) :
    FailsWith OfGraphs (append e operands) :=
  fun _ _ _ h => absurd h fails_append

/-- An insertion rejects the expression, or an operand is rejected. -/
theorem insert_failsWith_of_operands {e : Expr R}
    (h : ∀ a ∈ operandsOf e, FailsWith OfGraphs (insert a)) : FailsWith OfGraphs (insert e) := by
  rw [insert.eq_def]
  refine failsWith_get.bind fun g => ?_
  dsimp only
  -- what stands in the graph is found, and of the rest only scalars are taken
  split
  · exact failsWith_pure _
  split
  · split
    · -- an operator over two operands
      refine FailsWith.bind (h _ List.mem_cons_self) fun i => ?_
      refine FailsWith.bind (h _ (List.mem_cons_of_mem _ List.mem_cons_self)) fun j => ?_
      exact failsWith_append _ [i, j]
    · exact FailsWith.bind (h _ List.mem_cons_self) fun i => failsWith_append _ [i]
    · exact FailsWith.bind (h _ List.mem_cons_self) fun i => failsWith_append _ [i]
    · -- a leaf has to be a terminal under modifiers
      split
      · exact failsWith_append e []
      · exact failsWith_throw_bind (.unexpectedNode e)
  · exact failsWith_throw_bind (.breach _)

/-- Insertion reports what has no place in a graph. -/
theorem insert_failsWith (e : Expr R) : FailsWith OfGraphs (insert e) := by
  induction e with
  | leaf t => exact insert_failsWith_of_operands nofun
  | unary op a ih =>
    refine insert_failsWith_of_operands fun x hx => ?_
    rwa [List.mem_singleton.mp (mem_operands hx)]
  | binary op a b iha ihb =>
    refine insert_failsWith_of_operands fun x hx => ?_
    rcases List.mem_pair.mp hx with rfl | rfl
    · exact iha
    · exact ihb
  -- a list tensor has no operands in a graph
  | listTensor items => exact insert_failsWith_of_operands nofun

theorem insertTarget_failsWith (e : Expr R) : FailsWith OfGraphs (insertTarget e) :=
  (insert_failsWith e).bind fun _ => failsWith_modify _

theorem insertTargets_failsWith {scalars : Result R (Array (Expr R))}
    (h : Raises OfGraphs scalars) : FailsWith OfGraphs (insertTargets scalars) := by
  refine (failsWith_ofExcept h).bind fun as => ?_
  rw [forM_insertTarget_toList]
  exact failsWith_forM fun e _ => insertTarget_failsWith e

/-- Building a graph reports what scalarization and insertion do. -/
theorem ofTargets_raises [Scalar R] (es : List (Expr R)) : Raises OfGraphs (ofTargets es) := by
  intro err h
  unfold ofTargets at h
  split at h
  · cases h
  · next err' g hr =>
    cases h
    -- the expressions are scalarized on the way, each before its scalars are put in
    refine failsWith_forM (fun scalars hmem => insertTargets_failsWith ?_) _ _ _ hr
    rw [Expr.scalarizeAll_eq] at hmem
    obtain ⟨e, -, rfl⟩ := List.mem_map.mp hmem
    exact Expr.scalarize_raises e

omit [DecidableEq R] in
/-- A leaf without a descriptor is reported. -/
theorem describeLeaf_raises (n : Node R) : Raises OfGraphs (describeLeaf n) := by
  unfold describeLeaf
  split
  · exact raises_ok n
  · refine (Expr.analyse_raises n.expr).bind fun found _ => ?_
    cases found with
    | none => exact raises_error (.unexpectedNode _)
    | some m => exact raises_ok _

/-- Describing the leaves reports a leaf without a descriptor. -/
theorem describeLeaves_raises (g : ScalarGraph R) : Raises OfGraphs g.describeLeaves := by
  unfold describeLeaves
  rw [Array.mapM_eq_mapM_toList]
  refine Raises.bind ?_ fun _ _ => raises_ok _
  exact (raises_mapM fun n _ => describeLeaf_raises n).bind fun _ _ => raises_ok _

/-- Eliminating zeros reports what rebuilding the graph does. -/
theorem eliminateZeros_raises [Scalar R] (g : ScalarGraph R) (tables : OptimizedTables R) :
    Raises OfGraphs (g.eliminateZeros tables) := by
  refine (raises_checked _).bind fun es _ => ?_
  refine Raises.bind (raises_mapM fun i _ => ?_) fun targets _ => ofTargets_raises targets
  split
  · exact raises_ok _
  · exact raises_error (.breach _)

omit [DecidableEq R] in
/-- A leaf without a class is reported. -/
theorem leafStatus_raises (n : Node R) : Raises OfGraphs n.leafStatus := by
  unfold Node.leafStatus
  -- the status of a terminal is known, or the terminal is reported
  repeat' split
  all_goals first | exact raises_ok _ | exact raises_error (.unclassified _)

theorem statusOf_raises (g : ScalarGraph R) (isActive : Bool) (n : Node R) :
    Raises OfGraphs (g.statusOf isActive n) := by
  unfold statusOf
  split
  · exact raises_ok _
  · split
    · exact leafStatus_raises n
    · split
      · exact raises_ok _
      · exact raises_ok _

/-- The partition reports the first leaf without a class. -/
theorem partition_failsWith : FailsWith OfGraphs (partition : Building R Unit) := by
  refine failsWith_get.bind fun g => ?_
  dsimp only
  split
  · refine failsWith_forM fun i _ => failsWith_get.bind fun g' => ?_
    refine (failsWith_checked _).bind fun n => ?_
    refine (failsWith_ofExcept (statusOf_raises g' _ n)).bind fun s => ?_
    exact (failsWith_checked _).bind fun g'' => failsWith_set g''
  · exact failsWith_throw (.breach _)

theorem partitioned_raises (g : ScalarGraph R) : Raises OfGraphs (LoopPlan.partitioned g) := by
  intro err h
  unfold LoopPlan.partitioned at h
  split at h
  · cases h
  · next err' g' hr =>
    cases h
    exact partition_failsWith g _ g' hr

end Graphs

end ScalarGraph

/-! ## Factorizations -/

namespace Factors

variable [DecidableEq R] [Scalar R]

theorem combine_failsWith (op : BinaryOp) (x y : NodeId) :
    FailsWith OfGraphs (combine op x y : Building R NodeId) := by
  refine failsWith_get.bind fun g => ?_
  refine (failsWith_checked _).bind fun a => (failsWith_checked _).bind fun b => ?_
  exact (failsWith_checked _).bind fun e => insert_failsWith e

theorem scale_failsWith (op : BinaryOp) (m : FactorMap) (y : NodeId) :
    FailsWith OfGraphs (scale op m y : Building R Factors) := by
  unfold scale
  rw [Std.TreeMap.foldlM_eq_foldlM_toList]
  refine (failsWith_foldlM (fun scaled entry _ => ?_) _).bind fun _ => failsWith_pure _
  exact (combine_failsWith op _ y).bind fun _ => failsWith_pure _

theorem addTerm_failsWith (m : FactorMap) (key : ArgumentKey) (x : NodeId) :
    FailsWith OfGraphs (addTerm m key x : Building R FactorMap) := by
  unfold addTerm
  split
  · exact (combine_failsWith .sum _ x).bind fun _ => failsWith_pure _
  · exact failsWith_pure _

/-- A sum of factors reports operands of mixed degrees. -/
theorem sum_failsWith (e : Expr R) (a b : Factors) : FailsWith OfGraphs (sum e a b) := by
  unfold sum
  -- only factors of one degree are added
  split
  · split
    · rw [Std.TreeMap.foldlM_eq_foldlM_toList]
      refine (failsWith_foldlM (fun merged entry _ => ?_) _).bind fun _ => failsWith_pure _
      split
      · exact (combine_failsWith .sum _ _).bind fun _ => failsWith_pure _
      · exact failsWith_pure _
    · exact failsWith_throw_bind (.degrees (.mixedRank _ _ e))
  · exact failsWith_throw (.degrees (.mixedRank _ _ e))

/-- A product of factors fails as its insertions do. -/
theorem product_failsWith (e : Expr R) (a b : Factors) : FailsWith OfGraphs (product e a b) := by
  unfold product
  split
  -- one operand has no arguments, so the factors of the other are scaled
  · exact scale_failsWith _ _ _
  · exact scale_failsWith _ _ _
  · -- the factors of one operand by those of the other
    simp only [Std.TreeMap.foldlM_eq_foldlM_toList]
    refine (failsWith_foldlM (fun out k _ => ?_) _).bind fun _ => failsWith_pure _
    refine failsWith_foldlM (fun out l _ => ?_) out
    exact (combine_failsWith .product _ _).bind fun _ => addTerm_failsWith _ _ _
  · exact (insert_failsWith e).bind fun _ => failsWith_pure _

/-- A division of factors reports a divisor with arguments. -/
theorem division_failsWith (e : Expr R) (a b : Factors) : FailsWith OfGraphs (division e a b) := by
  unfold division
  split
  · exact failsWith_throw (.degrees (.argumentDivisor e))
  · exact scale_failsWith _ _ _
  · exact (insert_failsWith e).bind fun _ => failsWith_pure _

/-- An operator of factors reports what is not linear in the arguments. -/
theorem operator_failsWith (e : Expr R) (fs : List Factors) :
    FailsWith OfGraphs (operator e fs) := by
  unfold operator
  split
  · exact sum_failsWith _ _ _
  · exact product_failsWith _ _ _
  · exact division_failsWith _ _ _
  · exact failsWith_throw (.degrees (.nonlinear _))

end Factors

namespace ScalarGraph

variable [DecidableEq R] {g : ScalarGraph R}

omit [DecidableEq R] in
theorem leafTerminal_raises (n : Node R) : Raises OfGraphs (leafTerminal n) := by
  unfold leafTerminal
  split
  · exact raises_ok _
  · refine (Expr.analyse_raises n.expr).bind fun found _ => ?_
    cases found with
    | none => exact raises_error (.unexpectedNode _)
    | some m => exact raises_ok m

theorem leafTerminals_raises (g : ScalarGraph R) : Raises OfGraphs g.leafTerminals :=
  raises_mapM fun x _ => (leafTerminal_raises x.1).bind fun _ _ => raises_ok _

theorem sweptOperand_failsWith (swept : Array Factors) (i : NodeId) :
    FailsWith OfGraphs (sweptOperand swept i : Building R Factors) := by
  unfold sweptOperand
  split
  · exact failsWith_pure _
  · exact failsWith_throw (.breach _)

variable [Scalar R]

/-- Sweeping a node fails as its operator does. -/
theorem sweepNode_failsWith (position? : NodeId → Option Nat) (one : NodeId)
    (swept : Array Factors) (n : Node R) (i : NodeId) :
    FailsWith OfGraphs (sweepNode position? one swept n i) := by
  unfold sweepNode
  split
  · exact failsWith_pure _
  · refine (failsWith_mapM fun j _ => sweptOperand_failsWith swept j).bind fun operands => ?_
    split
    · exact (insert_failsWith n.expr).bind fun _ => failsWith_pure _
    · exact Factors.operator_failsWith n.expr operands

/-- The terms of a target of another degree are reported. -/
theorem targetTerms_failsWith (rank : Nat) (e : Expr R) (f : Factors) :
    FailsWith OfGraphs (targetTerms rank e f) := by
  unfold targetTerms
  split
  -- terms whose keys have another length are reported
  · split
    · exact failsWith_throw (.degrees (.rankMismatch _ _ e))
    · exact failsWith_pure _
  -- a factor without arguments fits rank zero, or is zero
  · split
    · exact failsWith_pure _
    · refine failsWith_get.bind fun g => (failsWith_checked _).bind fun e' => ?_
      split
      · exact failsWith_pure _
      · exact failsWith_throw (.degrees (.rankMismatch _ _ e))

theorem sweep_failsWith (g : ScalarGraph R) (rank : Nat) (arguments : List (ModifiedTerminal R))
    (position? : NodeId → Option Nat) : FailsWith OfGraphs (g.sweep rank arguments position?) := by
  unfold sweep
  refine (failsWith_forIn fun m _ => insert_failsWith m.expr).bind fun _ => ?_
  refine (insert_failsWith _).bind fun one => FailsWith.bind ?_ fun swept => FailsWith.bind ?_
    fun terms => (failsWith_modify _).bind fun _ => failsWith_pure _
  -- first all nodes, then the terms of the targets
  · refine failsWith_foldlM (fun swept x _ => ?_) _
    exact (sweepNode_failsWith position? one swept x.1 x.2).bind fun _ => failsWith_pure _
  · refine failsWith_foldlM (fun terms x _ => ?_) _
    refine (sweptOperand_failsWith swept x.1).bind fun f => ?_
    refine (failsWith_checked _).bind fun e => ?_
    exact (targetTerms_failsWith rank e f).bind fun _ => failsWith_pure _

/-- Factorization reports what is not linear in the arguments. -/
theorem factorize_raises (g : ScalarGraph R) (rank : Nat) : Raises OfGraphs (g.factorize rank) := by
  refine (leafTerminals_raises g).bind fun found _ => ?_
  dsimp only
  split
  · exact raises_ok _
  · next err' g' hr => exact raises_error (sweep_failsWith g rank _ _ _ _ g' hr)

end ScalarGraph

end WeakForm
