/-!
# Blank characters

The characters with the Unicode property White_Space, and the removal of blanks at
both ends of a text.  The property has 25 characters.  Seven of them are ASCII or
Latin-1.
-/

namespace Hornbook.Text

/-- The ranges of blank characters, first and last code point of each. -/
def blankRanges : List (Nat × Nat) :=
  [(0x0009, 0x000D), (0x0020, 0x0020), (0x0085, 0x0085), (0x00A0, 0x00A0), (0x1680, 0x1680),
   (0x2000, 0x200A), (0x2028, 0x2029), (0x202F, 0x202F), (0x205F, 0x205F), (0x3000, 0x3000)]

/-- Whether a character is blank. -/
def isBlank (c : Char) : Bool :=
  blankRanges.any fun r => r.1 ≤ c.toNat && c.toNat ≤ r.2

/-- The characters without the blanks at their start. -/
def trimStart (cs : List Char) : List Char := cs.dropWhile isBlank

/-- The characters without the blanks at either end. -/
def trim (cs : List Char) : List Char := (trimStart (trimStart cs).reverse).reverse

/-- The ranges hold 25 characters. -/
example : (blankRanges.map fun r => r.2 + 1 - r.1).sum = 25 := by decide

example : trim "\u00a0 \treuse \u3000\n".toList = "reuse".toList := by decide

example : trim "\u200breuse".toList = "\u200breuse".toList := by decide

end Hornbook.Text
