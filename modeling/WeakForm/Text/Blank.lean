import WeakForm.Text.Ranges

/-!
# Blanks

The white space of the Unicode standard, and texts without it at their ends.
-/

namespace WeakForm.Text

/-- Code points of white space. -/
def blankRanges : List (Nat × Nat) :=
  [(0x09, 0x0D), (0x20, 0x20), (0x85, 0x85), (0xA0, 0xA0), (0x1680, 0x1680), (0x2000, 0x200A),
   (0x2028, 0x2029), (0x202F, 0x202F), (0x205F, 0x205F), (0x3000, 0x3000)]

/-- A blank separates words and is not part of them. -/
def isBlank (c : Char) : Bool :=
  inRanges blankRanges c

/-- The characters without the blanks at both ends. -/
def trim (cs : List Char) : List Char :=
  ((cs.dropWhile isBlank).reverse.dropWhile isBlank).reverse

end WeakForm.Text
