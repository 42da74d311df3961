/-! # Blank characters

    A blank is a character with the Unicode property White_Space: 25 code
    points in ten ranges.  Names, comments, versions and whole lines are
    trimmed of blanks, and a line of blanks alone counts as empty.

    The byte order mark U+FEFF and the zero-width space U+200B are not
    blanks. -/

namespace PlcTypes.Text

/-- First and last code point of each range of blanks, in ascending order. -/
def blankRanges : List (Nat × Nat) :=
  [(0x09, 0x0D), (0x20, 0x20), (0x85, 0x85), (0xA0, 0xA0), (0x1680, 0x1680),
   (0x2000, 0x200A), (0x2028, 0x2029), (0x202F, 0x202F), (0x205F, 0x205F),
   (0x3000, 0x3000)]

/-- Whether a character is a blank. -/
def isBlank (c : Char) : Bool :=
  blankRanges.any fun r => r.1 ≤ c.toNat && c.toNat ≤ r.2

example : (blankRanges.map fun r => r.2 + 1 - r.1).sum = 25 := by decide

example : isBlank '\uFEFF' = false ∧ isBlank '\u200B' = false := by decide

end PlcTypes.Text
