import Mathlib.Algebra.BigOperators.Group.List.Basic
import Mathlib.Tactic.Abel
import Std.Data.TreeMap

/-!
# Sums over ordered maps

The entries of an ordered map after an insertion, and the sum of a function of key and value
over them.

* `entry_of_insert`, `entry_of_insertIfNew` — an entry is the one that was inserted, or old;
* `mapSum` — the sum;
* `mapSum_insert_new`, `mapSum_insert_old` — an insertion under a new key adds the
  entry, and one under an old key replaces it.
-/

namespace WeakForm

variable {κ υ A : Type} [Ord κ] [Std.TransOrd κ] [Std.LawfulEqOrd κ]

section Insert

variable {m : Std.TreeMap κ υ} {k k' : κ} {v w : υ}

/-- An entry after an insertion is the inserted one or an old one. -/
theorem entry_of_insert (h : (m.insert k v)[k']? = some w) :
    (k' = k ∧ w = v) ∨ m[k']? = some w := by
  rw [Std.TreeMap.getElem?_insert] at h
  split at h
  · next heq =>
    exact .inl ⟨(Std.LawfulEqCmp.compare_eq_iff_eq.mp heq).symm, (Option.some.inj h).symm⟩
  · exact .inr h

/-- An entry after an insertion into a free place is the inserted one or an old one. -/
theorem entry_of_insertIfNew (h : (m.insertIfNew k v)[k']? = some w) :
    (k' = k ∧ w = v) ∨ m[k']? = some w := by
  rw [Std.TreeMap.getElem?_insertIfNew] at h
  split at h
  · next heq =>
    exact .inl ⟨(Std.LawfulEqCmp.compare_eq_iff_eq.mp heq.1).symm, (Option.some.inj h).symm⟩
  · exact .inr h

end Insert

/-! ## The sum -/

variable [AddCommGroup A]

/-- The sum of `F` over the entries of a map. -/
def mapSum (F : κ → υ → A) (m : Std.TreeMap κ υ) : A :=
  (m.toList.map fun entry => F entry.1 entry.2).sum

variable {F : κ → υ → A} {m : Std.TreeMap κ υ} {k : κ} {v w : υ}

omit [Std.TransOrd κ] [Std.LawfulEqOrd κ] in
@[simp] theorem mapSum_empty : mapSum F (∅ : Std.TreeMap κ υ) = 0 :=
  rfl

theorem nodup_toList (m : Std.TreeMap κ υ) : m.toList.Nodup :=
  Std.TreeMap.distinct_keys_toList.imp fun {a b} hne heq =>
    hne (by rw [heq]; exact Std.ReflCmp.compare_self)

/-- The entries under other keys. -/
def others (m : Std.TreeMap κ υ) (k : κ) : List (κ × υ) :=
  m.toList.filter fun entry => ¬compare k entry.1 = .eq

/-- The other entries are those under another key. -/
theorem mem_others {entry : κ × υ} :
    entry ∈ others m k ↔ m[entry.1]? = some entry.2 ∧ k ≠ entry.1 := by
  rw [others, List.mem_filter, ← Std.TreeMap.mem_toList_iff_getElem?_eq_some]
  simp [Std.LawfulEqCmp.compare_eq_iff_eq]

/-- After an insertion the entries are the inserted one and the others. -/
theorem perm_insert : (m.insert k v).toList.Perm ((k, v) :: others m k) := by
  have hnd : ((k, v) :: others m k).Nodup := by
    refine List.nodup_cons.mpr ⟨fun h => ?_, (nodup_toList m).filter _⟩
    exact (mem_others.mp h).2 rfl
  -- Neither list repeats an entry, so it is enough that they have the same members.
  refine (List.perm_ext_iff_of_nodup (nodup_toList _) hnd).mpr fun entry => ?_
  rw [Std.TreeMap.mem_toList_iff_getElem?_eq_some, Std.TreeMap.getElem?_insert, List.mem_cons,
    mem_others]
  split
  -- the key that is inserted, with its new value
  · next hk =>
    obtain rfl := Std.LawfulEqCmp.compare_eq_iff_eq.mp hk
    simp [Prod.ext_iff, eq_comm]
  -- any other key keeps its entry
  · next hk =>
    have hk : k ≠ entry.1 := fun h => hk (Std.LawfulEqCmp.compare_eq_iff_eq.mpr h)
    simp [Prod.ext_iff, hk, hk.symm]

theorem mapSum_insert : mapSum F (m.insert k v) =
    F k v + ((others m k).map fun entry => F entry.1 entry.2).sum := by
  rw [mapSum, (perm_insert.map _).sum_eq, List.map_cons, List.sum_cons]

/-- Where a key is new, all entries are under others. -/
theorem others_of_none (h : m[k]? = none) : others m k = m.toList := by
  refine List.filter_eq_self.mpr fun entry he => ?_
  rw [Std.TreeMap.mem_toList_iff_getElem?_eq_some] at he
  simp only [decide_eq_true_eq]
  intro hk
  obtain rfl := Std.LawfulEqCmp.compare_eq_iff_eq.mp hk
  rw [h] at he
  cases he

/-- An entry under a new key is added to the sum. -/
theorem mapSum_insert_new (h : m[k]? = none) : mapSum F (m.insert k v) = F k v + mapSum F m := by
  rw [mapSum_insert, others_of_none h, mapSum]

/-- An entry that is there is one of the map, beside those under other keys. -/
theorem perm_of_getElem? (h : m[k]? = some w) : m.toList.Perm ((k, w) :: others m k) := by
  refine List.Perm.trans ?_ (perm_insert (v := w))
  -- the map is not changed when the entry is inserted once more
  refine (List.perm_ext_iff_of_nodup (nodup_toList _) (nodup_toList _)).mpr fun entry => ?_
  rw [Std.TreeMap.mem_toList_iff_getElem?_eq_some, Std.TreeMap.mem_toList_iff_getElem?_eq_some,
    Std.TreeMap.getElem?_insert]
  split
  · next hk =>
    obtain rfl := Std.LawfulEqCmp.compare_eq_iff_eq.mp hk
    rw [h]
  · rfl

/-- An entry under an old key takes the place of the entry that was there. -/
theorem mapSum_insert_old (h : m[k]? = some w) :
    mapSum F (m.insert k v) = mapSum F m - F k w + F k v := by
  have hold : mapSum F m = F k w + ((others m k).map fun entry => F entry.1 entry.2).sum := by
    rw [mapSum, ((perm_of_getElem? h).map _).sum_eq, List.map_cons, List.sum_cons]
  rw [hold, mapSum_insert]
  abel

end WeakForm
