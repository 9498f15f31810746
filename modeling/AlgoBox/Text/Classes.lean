/-!
# Classes of characters

Blanks separate symbols and may surround a length: the spaces, the line and
paragraph separators, and the control characters that act as such. Decimal
digits are those of every script that writes numbers in base ten: each has a
block of ten consecutive code points for them, and the table holds where the
blocks start, for version 14 of the character database.
-/

namespace AlgoBox.Text

/-- A code point belongs to a class, given as closed ranges ascending and apart from
each other, when one of the ranges holds it. -/
def inRanges (ranges : List (Nat × Nat)) (n : Nat) : Bool :=
  ranges.any fun range => range.1 ≤ n && n ≤ range.2

/-! ## Blanks -/

/-- The blank code points, as closed ascending ranges. -/
def blankRanges : List (Nat × Nat) :=
  [(0x09, 0x0D), (0x1C, 0x20), (0x85, 0x85), (0xA0, 0xA0), (0x1680, 0x1680),
   (0x2000, 0x200A), (0x2028, 0x2029), (0x202F, 0x202F), (0x205F, 0x205F), (0x3000, 0x3000)]

/-- Blank characters are skipped between symbols and around a length. -/
def isBlank (c : Char) : Bool := inRanges blankRanges c.toNat

/-- The blanks of a numeral: a space, the five ASCII layout characters, and
every blank beyond ASCII. The four ASCII separators U+001C to U+001F are not
among them. -/
def isNumeralBlank (c : Char) : Bool :=
  isBlank c && !(0x1C ≤ c.toNat && c.toNat ≤ 0x1F)

/-- Removes the characters of a class from both ends of a text. -/
def trim (isOuter : Char → Bool) (s : List Char) : List Char :=
  ((s.dropWhile isOuter).reverse.dropWhile isOuter).reverse

/-! ## Decimal digits -/

/-- The code points of the zeros of the decimal scripts, ascending. -/
def digitZeros : List Nat :=
  [
   0x30, 0x660, 0x6F0, 0x7C0, 0x966, 0x9E6, 0xA66, 0xAE6, 0xB66, 0xBE6, 0xC66, 0xCE6, 0xD66,
   0xDE6, 0xE50, 0xED0, 0xF20, 0x1040, 0x1090, 0x17E0, 0x1810, 0x1946, 0x19D0, 0x1A80, 0x1A90,
   0x1B50, 0x1BB0, 0x1C40, 0x1C50, 0xA620, 0xA8D0, 0xA900, 0xA9D0, 0xA9F0, 0xAA50, 0xABF0,
   0xFF10, 0x104A0, 0x10D30, 0x11066, 0x110F0, 0x11136, 0x111D0, 0x112F0, 0x11450, 0x114D0,
   0x11650, 0x116C0, 0x11730, 0x118E0, 0x11950, 0x11C50, 0x11D50, 0x11DA0, 0x16A60, 0x16AC0,
   0x16B50, 0x1D7CE, 0x1D7D8, 0x1D7E2, 0x1D7EC, 0x1D7F6, 0x1E140, 0x1E2F0, 0x1E950, 0x1FBF0]

/-- The value of a decimal digit of any script. -/
def decimalDigit? (c : Char) : Option Nat :=
  (digitZeros.find? fun start => start ≤ c.toNat && c.toNat < start + 10).map (c.toNat - ·)

example : decimalDigit? '7' = some 7 ∧ decimalDigit? '٣' = some 3 ∧ decimalDigit? 'x' = none := by
  decide +kernel

end AlgoBox.Text
