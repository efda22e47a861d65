import Mathlib.Data.List.Basic
import Mathlib.Order.Basic

/-!
# The order of texts

Texts are ordered by their characters. This is the order of their bytes as well: in UTF-8 a
longer code starts with a greater byte, and codes of one length are compared digit by digit.

* `bytes` — the bytes of a text;
* `encode_lt` — a greater character has the greater bytes, whatever comes after it;
* `bytes_lt_iff`, `bytes_le_iff` — texts are ordered as their bytes are.
-/

namespace WeakForm

/-- The bytes of a text in UTF-8. -/
def bytes (s : String) : List UInt8 :=
  s.toUTF8.data.toList

/-- The bytes of a text are those of its characters, one after the other. -/
theorem bytes_eq (s : String) : bytes s = s.toList.flatMap String.utf8EncodeChar := by
  rw [bytes, String.toUTF8_eq_toByteArray, ← String.utf8Encode_toList, List.utf8Encode,
    List.toList_data_toByteArray]

/-- Texts of bytes are compared by the first byte that differs. -/
theorem byte_cons_lt {m n : Nat} (hm : m < 256) (hn : n < 256) (xs ys : List UInt8) :
    UInt8.ofNat m :: xs < UInt8.ofNat n :: ys ↔ m < n ∨ m = n ∧ xs < ys := by
  rw [List.cons_lt_cons_iff, UInt8.lt_iff_toNat_lt, ← UInt8.toNat_inj, UInt8.toNat_ofNat',
    UInt8.toNat_ofNat', Nat.mod_eq_of_lt hm, Nat.mod_eq_of_lt hn]

/-- The code of a character is at most the last code point. -/
theorem code_lt (c : Char) : c.val.toNat < 1114112 := by
  rcases c.valid with h | h
  · exact Nat.lt_trans h (by decide)
  · exact h.2

/-- **A greater character has the greater bytes.** -/
theorem encode_lt {c d : Char} (h : c < d) (xs ys : List UInt8) :
    String.utf8EncodeChar c ++ xs < String.utf8EncodeChar d ++ ys := by
  have hlt : c.val.toNat < d.val.toNat := h
  have hd := code_lt d
  -- the digits in base 64, each from the one before
  have hsecond : ∀ v : Nat, v / 4096 = v / 64 / 64 := fun v => by omega
  have hthird : ∀ v : Nat, v / 262144 = v / 64 / 64 / 64 := fun v => by omega
  unfold String.utf8EncodeChar
  dsimp only
  rw [hsecond, hsecond, hthird, hthird]
  -- one case for each pair of lengths
  split_ifs
  all_goals
    simp (disch := omega) only [List.cons_append, List.nil_append, byte_cons_lt]
    omega

/-- Texts of characters that are in order have bytes in order. -/
theorem flatMap_encode_lt {cs ds : List Char} (h : cs < ds) :
    cs.flatMap String.utf8EncodeChar < ds.flatMap String.utf8EncodeChar := by
  induction h with
  | @nil d ds =>
    -- no character is without bytes
    have hne : String.utf8EncodeChar d ≠ [] := by
      rw [← List.length_pos_iff, String.length_utf8EncodeChar]
      exact d.utf8Size_pos
    obtain ⟨x, xs, hx⟩ := List.exists_cons_of_ne_nil hne
    rw [List.flatMap_cons, hx]
    -- the first characters differ, or they are dropped on both sides
    exact .nil
  | rel h => exact encode_lt h _ _
  | cons h ih =>
    rw [List.flatMap_cons, List.flatMap_cons]
    exact List.append_left_lt ih

/-- **Texts are ordered as their bytes are.** -/
theorem bytes_lt_iff {a b : String} : bytes a < bytes b ↔ a < b := by
  have hmono : ∀ {a b : String}, a < b → bytes a < bytes b := by
    intro a b h
    rw [bytes_eq, bytes_eq]
    exact flatMap_encode_lt h
  -- the order of texts is total, so it is enough that bytes never turn it around
  refine ⟨fun h => ?_, hmono⟩
  by_contra hle
  rcases Std.le_iff_lt_or_eq.mp (Std.not_lt.mp hle) with hlt | rfl
  · exact List.lt_asymm h (hmono hlt)
  · exact List.lt_irrefl _ h

theorem bytes_le_iff {a b : String} : bytes a ≤ bytes b ↔ a ≤ b := by
  rw [← Std.not_lt, bytes_lt_iff, Std.not_lt]

end WeakForm
