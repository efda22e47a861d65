import Mathlib.Data.List.Basic
import WeakForm.Proofs.Outcome

/-!
# Peeling modifiers

The analysis of a modified terminal peels its modifiers from the outside in. What one modifier
adds to those that are peeled before is said once, by `Peeled`, and what the analysis makes of
the modifiers in the end by `analyse_eq_some`.

* `Peeled`, `peel_eq_some` — one modifier;
* `peel_unary`, `isModifiedTerminal_of_peel` — the modifiers of an expression;
* `analyse_eq_some` — the descriptor that the analysis ends with.
-/

namespace WeakForm

/-- Indices are all fixed if they are those of a list of positions. -/
theorem mapM_position?_eq_some {is : List Index} {c : List Nat} :
    is.mapM Index.position? = some c ↔ is = c.map .fixed := by
  induction is generalizing c with
  | nil => simp [eq_comm, List.map_eq_nil_iff]
  | cons j is ih =>
    cases j with
    | free i => cases c <;> simp [Index.position?]
    | fixed p =>
      rw [List.mapM_cons]
      show ((is.mapM Index.position?).bind fun c' => some (p :: c')) = some c ↔ _
      simp only [Option.bind_eq_some_iff, Option.some.injEq, ih]
      constructor
      · rintro ⟨c', rfl, rfl⟩
        rfl
      · intro h
        cases c with
        | nil => cases h
        | cons q c =>
          cases h
          exact ⟨c, rfl, rfl⟩

/-! ## One modifier -/

namespace Modifiers

variable {m m' : Modifiers} {op : UnaryOp}

/-- What a modifier adds to those that are peeled before it. -/
inductive Peeled (m : Modifiers) : UnaryOp → Modifiers → Prop
  /-- An indexing gives the component, if there is none yet and no derivative is outside. -/
  | indexed {is : List Index} {c : List Nat} (hc : m.component? = none) (hp : m.physical = [])
      (hr : m.reference = []) (his : is = c.map .fixed) :
      Peeled m (.indexed is) { m with component? := some c }
  /-- A gradient takes its direction from the end of the component. -/
  | grad {c : List Nat} {p : Nat} (hc : m.component? = some (c ++ [p])) :
      Peeled m .grad { m with component? := some c, physical := p :: m.physical }
  | referenceGrad {c : List Nat} {p : Nat} (hc : m.component? = some (c ++ [p])) :
      Peeled m .referenceGrad { m with component? := some c, reference := p :: m.reference }
  | spatialDerivative {is : List Index} {ps : List Nat} (his : is = ps.map .fixed) :
      Peeled m (.spatialDerivative is) { m with physical := ps ++ m.physical }
  | restricted {side : Side} (h : m.restriction = none) :
      Peeled m (.restricted side) { m with restriction := some side }
  | averaged {region : Averaging} (h : m.averaged = none) :
      Peeled m (.averaged region) { m with averaged := some region }

/-- **Peeling one modifier.** -/
theorem peel_eq_some : m.peel op = .ok (some m') ↔ Peeled m op m' := by
  constructor
  · intro h
    cases op with
    | indexed is =>
      rw [peel] at h
      split at h
      · cases h
      -- an indexing comes before all derivatives, and there is one only
      · next hfree =>
        obtain ⟨c, his, rfl⟩ := Option.map_eq_some_iff.mp (Except.ok.inj h)
        simp only [Bool.or_eq_true, not_or, Option.not_isSome_iff_eq_none, Bool.not_eq_true',
          Bool.not_eq_false, List.isEmpty_iff] at hfree
        exact .indexed hfree.1.1 hfree.1.2 hfree.2 (mapM_position?_eq_some.mp his)
    -- a gradient takes the last entry of the component as its direction
    | grad =>
      obtain ⟨c, hc, h⟩ := Option.bind_eq_some_iff.mp (Except.ok.inj h)
      obtain ⟨p, hp, h⟩ := Option.bind_eq_some_iff.mp h
      cases h
      exact .grad (by rw [hc, List.dropLast_append_getLast? p hp])
    | referenceGrad =>
      obtain ⟨c, hc, h⟩ := Option.bind_eq_some_iff.mp (Except.ok.inj h)
      obtain ⟨p, hp, h⟩ := Option.bind_eq_some_iff.mp h
      cases h
      exact .referenceGrad (by rw [hc, List.dropLast_append_getLast? p hp])
    -- a spatial derivative has fixed directions
    | spatialDerivative is =>
      obtain ⟨ps, his, rfl⟩ := Option.map_eq_some_iff.mp (Except.ok.inj h)
      exact .spatialDerivative (mapM_position?_eq_some.mp his)
    | restricted side =>
      rw [peel] at h
      split at h
      · cases h
      -- the terminal is not restricted yet
      · next hfree =>
        cases h
        exact .restricted (by simpa using hfree)
    | averaged region =>
      rw [peel] at h
      split at h
      · cases h
      -- it is not averaged yet
      · next hfree =>
        cases h
        exact .averaged (by simpa using hfree)
    | math | abs | indexSum | componentTensor | labelled => cases h
  -- each rule of the relation is what the function computes
  · intro h
    cases h with
    | indexed hc hp hr his => simp [peel, hc, hp, hr, mapM_position?_eq_some.mpr his]
    | grad hc => simp [peel, hc]
    | referenceGrad hc => simp [peel, hc]
    | spatialDerivative his => simp [peel, mapM_position?_eq_some.mpr his]
    | restricted h => simp [peel, h]
    | averaged h => simp [peel, h]

theorem Peeled.isModifier (h : Peeled m op m') : op.isModifier := by
  cases h <;> rfl

end Modifiers

namespace Expr

variable {R : Type} {m m' : Modifiers} {op : UnaryOp} {t : Terminal R} {a e : Expr R}

/-- A modifier is peeled off first, and then the chain below it. -/
theorem peel_unary : (unary op a).peel m = .ok (some (m', t)) ↔
    ∃ m₁, m.Peeled op m₁ ∧ a.peel m₁ = .ok (some (m', t)) := by
  rw [peel, bind_eq_ok]
  constructor
  · rintro ⟨found, hop, h⟩
    cases found with
    | none => cases h
    | some m₁ => exact ⟨m₁, Modifiers.peel_eq_some.mp hop, h⟩
  · rintro ⟨m₁, hop, h⟩
    exact ⟨some m₁, Modifiers.peel_eq_some.mpr hop, h⟩

/-- What modifiers are peeled from is a terminal under modifiers. -/
theorem isModifiedTerminal_of_peel (h : e.peel m = .ok (some (m', t))) :
    e.isModifiedTerminal ∧ e.core = some t := by
  induction e generalizing m with
  | leaf t' =>
    cases h
    exact ⟨rfl, rfl⟩
  | unary op a ih =>
    obtain ⟨m₁, hop, h⟩ := peel_unary.mp h
    obtain ⟨ha, hcore⟩ := ih h
    rw [isModifiedTerminal, core, hop.isModifier, ha]
    exact ⟨rfl, hcore⟩
  | binary | listTensor => cases h

/-- **The descriptor that the analysis ends with.** -/
theorem analyse_eq_some {d : ModifiedTerminal R} : e.analyse = .ok (some d) ↔
    e.isScalar ∧ ∃ m, e.peel {} = .ok (some (m, d.terminal)) ∧
      (m.physical = [] ∨ m.reference = []) ∧
      (m.component?.getD []).length = d.terminal.shape.length ∧
      d = { terminal := d.terminal, physical := m.physical, reference := m.reference,
            component := m.component?.getD [], restriction := m.restriction,
            averaged := m.averaged, expr := e } := by
  have hdescribe : e.analyse = .ok (some d) ↔ e.describe = .ok (some d) := by
    rw [analyse]
    cases e.describe <;> simp
  rw [hdescribe, describe]
  by_cases hs : e.isScalar
  · simp only [hs, if_true, true_and]
    constructor
    · intro h
      obtain ⟨found, hpeel, h⟩ := bind_eq_ok.mp h
      cases found with
      | none => cases h
      | some found =>
        obtain ⟨m, t⟩ := found
        -- the frames are not mixed, and the component is one of the terminal
        simp only [pure, Except.pure, throw, throwThe, MonadExceptOf.throw, bind, Except.bind] at h
        split at h
        · cases h
        · next hframes =>
          split at h
          · next hlength =>
            cases h
            refine ⟨m, hpeel, ?_, hlength, rfl⟩
            by_cases hp : m.physical = []
            · exact .inl hp
            · exact .inr (by simpa [hp] using hframes)
          · cases h
    -- a chain that is peeled with matching frames and component has a descriptor
    · rintro ⟨m, hpeel, hframes, hlength, hd⟩
      refine bind_eq_ok.mpr ⟨some (m, d.terminal), hpeel, ?_⟩
      have hmixed : (!m.physical.isEmpty && !m.reference.isEmpty) = false := by
        rcases hframes with h | h <;> simp [h]
      dsimp only
      rw [hmixed, if_neg Bool.false_ne_true, if_pos hlength, ← hd]
      rfl
  · simp [hs, pure, Except.pure]

end Expr

end WeakForm
