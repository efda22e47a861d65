import WeakForm.Integral.Plan
import WeakForm.Proofs.Outcome
import WeakForm.Proofs.TableNames

/-!
# Tables of several loops

The tables of all loops are collected by name. A name tells the number of points, and loops have
different numbers of points, so no table of one loop has the name of one of another: each is
added as it is, and none takes the place of another.

* `Adds` — a map with the entries of another one, and new ones;
* `adds_foldl_insert`, `mergeTables_adds` — maps without common keys are put together;
* `not_mem_of_points` — names at different numbers of points are no common keys;
* `LoopContext.NamedAt` — the tables of a loop have names at its number of points.
-/

namespace WeakForm

/-! ## Maps without common keys -/

section Maps

variable {υ : Type} {m m' found : Std.TreeMap String υ} {entries : List (String × υ)}
  {entry : String × υ}

/-- The map `found` has the given entries, and those of `m`. -/
def Adds (m : Std.TreeMap String υ) (entries : List (String × υ))
    (found : Std.TreeMap String υ) : Prop :=
  ∀ (name : String) (v : υ), found[name]? = some v ↔ (name, v) ∈ entries ∨ m[name]? = some v

theorem adds_nil (m : Std.TreeMap String υ) : Adds m [] m := by
  intro name v
  rw [or_iff_right List.not_mem_nil]

/-- What is new is not found. -/
theorem Adds.getElem?_eq_none (h : Adds m entries found) {name : String} (hm : name ∉ m)
    (hnew : name ∉ entries.map (·.1)) : found[name]? = none := by
  refine Option.eq_none_iff_forall_ne_some.mpr fun v hv => ?_
  rcases (h name v).mp hv with hmem | hold
  · exact hnew (List.mem_map_of_mem (f := (·.1)) hmem)
  · exact hm (Std.TreeMap.mem_iff_isSome_getElem?.mpr (by rw [hold]; rfl))

/-- One entry more. -/
theorem Adds.insert (h : Adds m entries found) (hm : entry.1 ∉ m)
    (hnew : entry.1 ∉ entries.map (·.1)) :
    Adds m (entries ++ [entry]) (found.insert entry.1 entry.2) := by
  intro name v
  rw [Std.TreeMap.getElem?_insert, List.mem_append, List.mem_singleton, or_right_comm, ← h name v]
  split
  · -- the entry that is added; none with its key was there
    next heq =>
    obtain rfl := Std.LawfulEqCmp.compare_eq_iff_eq.mp heq
    rw [h.getElem?_eq_none hm hnew, Option.some.injEq, or_iff_right nofun, Prod.ext_iff,
      and_iff_right rfl, eq_comm]
  -- any other name is found as before
  · next hne =>
    refine (or_iff_left fun heq => hne ?_).symm
    rw [← heq]
    exact Std.ReflCmp.compare_self

/-- The entry that a pass over a map comes to has a key that the entries before do not have. -/
theorem entry_of_done {done : List (String × υ)} (h : done ++ [entry] <+: m.toList) :
    entry.1 ∈ m ∧ entry.1 ∉ done.map (·.1) := by
  have hkeys : (m.toList.map (·.1)).Nodup := by
    rw [Std.TreeMap.map_fst_toList_eq_keys]
    exact Std.TreeMap.nodup_keys
  have hsub := (h.map (·.1)).sublist.nodup hkeys
  rw [List.map_append, List.nodup_append] at hsub
  refine ⟨?_, fun hmem => hsub.2.2 _ hmem _ (List.mem_singleton.mpr rfl) rfl⟩
  rw [← Std.TreeMap.mem_keys, ← Std.TreeMap.map_fst_toList_eq_keys]
  exact List.mem_map_of_mem (h.subset (List.mem_append_right _ (List.mem_singleton.mpr rfl)))

/-- **All entries of a map with other keys are added.** -/
theorem adds_foldl_insert (hnew : ∀ name ∈ m', name ∉ m) :
    Adds m m'.toList (m'.foldl .insert m) := by
  rw [Std.TreeMap.foldl_eq_foldl_toList]
  refine foldl_induct (P := Adds m) (adds_nil m) fun done entry found hpre hfound => ?_
  obtain ⟨hmem, hdone⟩ := entry_of_done hpre
  exact hfound.insert (hnew _ hmem) hdone

/-! ## Maps of several loops -/

variable {α : Type} {items : List (Nat × α)} {f : Nat × α → Std.TreeMap String υ}

/-- Names at another number of points than those of all items are new. -/
theorem not_mem_of_points
    (hm : ∀ (name : String) (v : υ), m[name]? = some v ↔ ∃ x ∈ items, (f x)[name]? = some v)
    (hitems : ∀ x ∈ items, ∀ name ∈ f x, OfPoints x.1 name) {points : Nat}
    (hpoints : ∀ name ∈ m', OfPoints points name) (hnew : points ∉ items.map (·.1)) :
    ∀ name ∈ m', name ∉ m := by
  intro name hname hold
  obtain ⟨v, hv⟩ := Option.isSome_iff_exists.mp (Std.TreeMap.mem_iff_isSome_getElem?.mp hold)
  obtain ⟨x, hx, hv⟩ := (hm name v).mp hv
  have hmem : name ∈ f x := Std.TreeMap.mem_iff_isSome_getElem?.mpr (by rw [hv]; rfl)
  have hsame := (hitems x hx name hmem).unique (hpoints name hname)
  exact hnew (hsame ▸ List.mem_map_of_mem (f := (·.1)) hx)

/-- The entries of one item more. -/
theorem adds_append {x : Nat × α} (h : Adds m (f x).toList found)
    (hm : ∀ (name : String) (v : υ), m[name]? = some v ↔ ∃ y ∈ items, (f y)[name]? = some v)
    (name : String) (v : υ) :
    found[name]? = some v ↔ ∃ y ∈ items ++ [x], (f y)[name]? = some v := by
  rw [h name v, hm, Std.TreeMap.mem_toList_iff_getElem?_eq_some, or_comm]
  simp only [List.mem_append, List.mem_singleton, or_and_right, exists_or, exists_eq_left]

end Maps

/-! ## Tables by name -/

variable {R : Type}

/-- **Tables with other names are added as they are.** -/
theorem mergeTables_adds [Scalar R] [DecidableEq R] {tol : Tolerance R}
    {all tables merged : Std.TreeMap String (Table R)} (hnew : ∀ name ∈ tables, name ∉ all)
    (h : IntegralPlan.mergeTables tol all tables = .ok merged) :
    Adds all tables.toList merged := by
  rw [IntegralPlan.mergeTables, Std.TreeMap.foldlM_eq_foldlM_toList] at h
  refine foldlM_ok_induct (P := Adds all) (adds_nil all) ?_ h
  intro done entry found found' hpre hfound hstep
  obtain ⟨hmem, hdone⟩ := entry_of_done hpre
  -- no table of the name is there
  rw [hfound.getElem?_eq_none (hnew _ hmem) hdone] at hstep
  rw [← Except.ok.inj hstep]
  exact hfound.insert (hnew _ hmem) hdone

/-- The tables of a loop have names at its number of points. -/
structure LoopContext.NamedAt (context : LoopContext R) (points : Nat) : Prop where
  unique : ∀ name ∈ context.unique, OfPoints points name
  types : ∀ name ∈ context.types, OfPoints points name

end WeakForm
