import WeakForm.Proofs.ElementOrdinals
import WeakForm.Proofs.Outcome
import WeakForm.Table.Assembly

/-!
# Numbered elements

The elements of several expressions are numbered before any pass changes the expressions. An
element is numbered exactly if a terminal that occurs in one of them is read from it, and what a
terminal's table is assembled from is the element that numbers count the terminal for.

* `mem_occurrences` — the elements of expressions are those of the terminals in them;
* `exists_ordinal` — the elements that have ordinals;
* `tableSource_element` — the element of a terminal's table.
-/

namespace WeakForm

variable {R : Type} {x : ElementId}

/-! ## Elements of expressions -/

/-- A terminal that is read from the element occurs in the expression. -/
def Expr.ReadsElement (e : Expr R) (x : ElementId) : Prop :=
  ∃ t, Subexpression (leaf t) e ∧ t.basisElement? = some x

theorem Expr.ownElement?_eq_some {a : Expr R} :
    a.ownElement? = some x ↔ ∃ t, a = leaf t ∧ t.basisElement? = some x := by
  cases a <;> simp [ownElement?]

/-- The elements that occur are those that some expression reads. -/
theorem mem_occurrences {es : List (Expr R)} :
    x ∈ occurrences es ↔ ∃ e ∈ es, e.ReadsElement x := by
  induction es with
  | nil => simp [occurrences]
  | cons e es ih =>
    rw [occurrences_cons, List.mem_append, ih, List.mem_filterMap, List.exists_mem_cons_iff]
    refine or_congr ⟨?_, ?_⟩ Iff.rfl
    · rintro ⟨a, ha, hx⟩
      obtain ⟨t, rfl, hx⟩ := Expr.ownElement?_eq_some.mp hx
      exact ⟨t, Expr.mem_nodes.mp ha, hx⟩
    · rintro ⟨t, ht, hx⟩
      exact ⟨.leaf t, Expr.mem_nodes.mpr ht, hx⟩

/-- **An element is numbered** if and only if one of the expressions reads it. -/
theorem ElementNumbering.exists_ordinal [Scalar R] [DecidableEq R] {es : List (Expr R)} :
    (∃ k, (ofExprs es).ordinal? x = some k) ↔ ∃ e ∈ es, e.ReadsElement x := by
  rw [← mem_occurrences]
  constructor
  · rintro ⟨k, hk⟩
    exact ((ofExprs_numbers es).ordinal_eq_some.mp hk).1
  · intro hx
    exact ⟨_, (ofExprs_numbers es).ordinal_eq_some.mpr ⟨hx, rfl⟩⟩

/-! ## Elements of tables -/

/-- A source of an element reads the element. -/
theorem Descriptor.elementSource_element {m : Descriptor R} {d : Domain} {e : Element}
    {overflow : Overflow} {s : TableSource} (h : m.elementSource d e overflow = .ok s) :
    s.element = e.id := by
  obtain ⟨⟨frame, derivatives⟩, -, h⟩ := bind_eq_ok.mp h
  cases h
  rfl

/-- **A table is read from the element of its terminal**, as numbers count it. -/
theorem ModifiedTerminal.tableSource_element {m : ModifiedTerminal R} {d : Domain}
    {overflow : Overflow} {s : TableSource} (h : m.tableSource d overflow = .ok (some s)) :
    m.terminal.basisElement? = some s.element := by
  unfold tableSource at h
  split at h
  -- arguments and coefficients have an element of their own, coordinates that of the domain
  · next a ha =>
    obtain ⟨s', hs, h⟩ := bind_eq_ok.mp h
    cases h
    rw [ha, Descriptor.elementSource_element (lift_eq_ok.mp hs)]
    rfl
  · next c hc =>
    obtain ⟨s', hs, h⟩ := bind_eq_ok.mp h
    cases h
    rw [hc, Descriptor.elementSource_element (lift_eq_ok.mp hs)]
    rfl
  · next g hg =>
    rw [hg, Terminal.basisElement?, Geometry.isCoordinateField]
    split at h
    · -- the coordinates of a point
      next hkind =>
      obtain ⟨⟨frame, derivatives⟩, -, h⟩ := bind_eq_ok.mp h
      obtain ⟨c, -, h⟩ := bind_eq_ok.mp h
      cases h
      rw [hkind]
      rfl
    · -- the Jacobian
      next hkind =>
      by_cases hphysical : m.physical.isEmpty
      · rw [if_pos hphysical] at h
        obtain ⟨k, -, h⟩ := bind_eq_ok.mp h
        obtain ⟨derivatives, -, h⟩ := bind_eq_ok.mp h
        obtain ⟨c, -, h⟩ := bind_eq_ok.mp h
        cases h
        rw [hkind]
        rfl
      · rw [if_neg hphysical] at h
        cases h
    · cases h
  · cases h
  · cases h

end WeakForm
