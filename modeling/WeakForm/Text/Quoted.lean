import WeakForm.Text.Combining
import WeakForm.Text.Unprintable

/-!
# Quoted text

A text in a diagnostic stands between double quotes. Inside, the quote and the
backslash are preceded by a backslash, control characters with a letter of their
own are written with it, and all other characters that would not show, or would
change the look of their neighbour, are written by their code point.
-/

namespace WeakForm.Text

/-- A character by its code point, in lower-case hexadecimal digits. -/
def codePoint (c : Char) : List Char :=
  ['\\', 'u', '\x7b'] ++ Nat.toDigits 16 c.toNat ++ ['\x7d']

/-- The written form of a character between quotes. -/
def escape (c : Char) : List Char :=
  if c = '\x00' then ['\\', '0']
  else if c = '\t' then ['\\', 't']
  else if c = '\r' then ['\\', 'r']
  else if c = '\n' then ['\\', 'n']
  else if c = '\\' ∨ c = '"' then ['\\', c]
  else if isCombining c || isUnprintable c then codePoint c
  else [c]

/-- A text between double quotes. -/
def quote (s : String) : String :=
  String.ofList ('"' :: s.toList.flatMap escape ++ ['"'])

end WeakForm.Text
