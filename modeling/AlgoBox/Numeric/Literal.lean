import AlgoBox.Numeric.Binary64
import AlgoBox.Text.Classes

/-!
# Number literals

A literal is an optional sign followed by a word (`inf`, `infinity` or `nan`,
in any case) or by a decimal: digits with at most one point and at least one
digit, and an optional exponent. Digits may come from any decimal script, and a
single underscore may stand between two digits. Blanks around the literal are
ignored. Its value is the double nearest to the decimal.
-/

namespace AlgoBox.Numeric.Literal

open AlgoBox.Text

/-- Decimal digits of other scripts become the ten ASCII digits. -/
def toAsciiDigit (c : Char) : Char :=
  match decimalDigit? c with
  | some d => Nat.digitChar d
  | none => c

/-- Removes the underscores from a text in which each has a digit on both
sides. `previous` is the character to the left. -/
def dropSeparators? (previous : Char) : List Char → Option (List Char)
  | [] => some []
  | '_' :: next :: rest =>
    if previous.isDigit && next.isDigit then
      (dropSeparators? next rest).map (next :: ·)
    else none
  | ['_'] => none
  | c :: rest => (dropSeparators? c rest).map (c :: ·)

/-- The number that ASCII digits write. -/
def natOfDigits (digits : List Char) : Nat :=
  digits.foldl (fun n c => 10 * n + (c.toNat - '0'.toNat)) 0

/-- The sign in front of a literal, true for a minus, and the rest. -/
def splitSign : List Char → Bool × List Char
  | '-' :: rest => (true, rest)
  | '+' :: rest => (false, rest)
  | rest => (false, rest)

/-- The exponent behind the digits: nothing, or the letter, an optional sign
and digits up to the end. -/
def exponent? : List Char → Option Int
  | [] => some 0
  | mark :: rest =>
    let (negative, digits) := splitSign rest
    if (mark = 'e' ∨ mark = 'E') ∧ digits ≠ [] ∧ digits.all Char.isDigit then
      some (if negative then -(natOfDigits digits : Int) else natOfDigits digits)
    else none

/-- The digits behind a point, if there is one, and the rest. -/
def splitFraction : List Char → List Char × List Char
  | '.' :: rest => (rest.takeWhile Char.isDigit, rest.dropWhile Char.isDigit)
  | rest => ([], rest)

/-- An unsigned decimal: its digits and the exponent of the last one. -/
def decimal? (s : List Char) : Option (Nat × Int) :=
  let whole := s.takeWhile Char.isDigit
  let (fraction, rest) := splitFraction (s.dropWhile Char.isDigit)
  if whole ++ fraction = [] then none
  else
    (exponent? rest).map fun e => (natOfDigits (whole ++ fraction), e - fraction.length)

/-- The value of a literal of ASCII characters without blanks and underscores. -/
def value? (s : List Char) : Option Binary64 :=
  let (negative, rest) := splitSign s
  let word := rest.map Char.toLower
  if word = "inf".toList ∨ word = "infinity".toList then some (.infinite negative)
  else if word = "nan".toList then some .nan
  else (decimal? rest).map fun (digits, exponent) => Binary64.ofDecimal negative digits exponent

/-- Reads a number literal. -/
def read? (s : List Char) : Option Binary64 :=
  (dropSeparators? ' ' ((trim isNumeralBlank s).map toAsciiDigit)).bind value?

end AlgoBox.Numeric.Literal
