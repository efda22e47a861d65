import Std.Data.HashMap

/-!
# Memo tables

A memo table of a function `f` holds values of `f` that were computed before.
Every entry is known to be the value of `f` at its key, so a traversal that
answers from the table returns what `f` returns: its result type says so.

* `Memo f` — a table of values of `f`;
* `Memo.lookUp` — the value at a key, from the table or computed and stored.
-/

namespace WeakForm

/-- Values of `f` computed so far. -/
structure Memo {α β : Type} [BEq α] [Hashable α] (f : α → β) where
  table : Std.HashMap α β
  /-- An entry is the value of `f` at its key. -/
  sound : ∀ a b, table[a]? = some b → b = f a

namespace Memo

/-- A computation of the value `v` that reads and extends a table of `f`. -/
abbrev Run {α β γ : Type} [BEq α] [Hashable α] (f : α → β) (v : γ) :=
  StateM (Memo f) { r : γ // r = v }

variable {α β : Type} [BEq α] [Hashable α] {f : α → β}

/-- The table without entries. -/
def empty : Memo f where
  table := ∅
  sound := by simp

/-- Add the value of `f` at a key. -/
def store [LawfulBEq α] (m : Memo f) (a : α) (b : β) (h : b = f a) : Memo f where
  table := m.table.insert a b
  sound := by
    intro a' b' h'
    rw [Std.HashMap.getElem?_insert] at h'
    split at h'
    · next he =>
      obtain rfl := eq_of_beq he
      rw [← Option.some.inj h', h]
    · exact m.sound a' b' h'

/-- The value at a key: from the table if it is there, else computed and stored. -/
def lookUp [LawfulBEq α] (a : α) (compute : Run f (f a)) : Run f (f a) := fun m =>
  match h : m.table[a]? with
  | some b => (⟨b, m.sound a b h⟩, m)
  | none =>
    let (r, m) := compute m
    (r, m.store a r.1 r.2)

/-- Run a computation from the empty table. -/
def Run.value {γ : Type} {v : γ} (c : Run f v) : γ :=
  (c empty).1.1

theorem Run.value_eq {γ : Type} {v : γ} (c : Run f v) : c.value = v :=
  (c empty).1.2

end Memo

end WeakForm
