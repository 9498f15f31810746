import AlgoBox.Numeric.Literal
import AlgoBox.Options.Fault

/-!
# Lengths in em

Lengths are read from a text with the unit `em` behind the number, and written
into style attributes without noise: at most four decimal places and six
significant digits, and no fraction where there is none.

## Main definitions

* `Em.parse`: reads a length, which is finite and not negative.
* `Em.format`: writes a length.
-/

namespace AlgoBox.Em

open Numeric Text

-- powers of naturals are the core ones, as in the definition of a double
attribute [local instance (high)] instPowNat

/-- The unit behind the number. -/
def unit : List Char := ['e', 'm']

/-- Reads a text as a length. -/
def parseText (text : String) : Except OptionFault Binary64 :=
  let s := trim isBlank text.toList
  if s.drop (s.length - 2) ≠ unit then .error (.missingUnit text)
  else
    match Literal.read? (s.take (s.length - 2)) with
    | none => .error (.notANumber text)
    | some x => if x.isFinite && !x.isNegative then .ok x else .error (.notALength text)

/-- Reads an option value as a length. -/
def parse : Value → Except OptionFault Binary64
  | .text s => parseText s
  | value => .error (.of .lengthNotText value)

/-- A length rounded to four decimal places, as a number of ten-thousandths. -/
def tenThousandths (rank : Nat) : Nat :=
  roundHalfEven (Binary64.units rank * 10000) Binary64.unitsPerOne

/-- The rank of the double nearest to a number of ten-thousandths. -/
def rankOfTenThousandths (n : Nat) : Nat :=
  Binary64.nearestRank (n * Binary64.unitsPerOne) 10000

/-- A positive double rounded to six significant digits. -/
def sixDigits (rank : Nat) : Decimal :=
  let exact := Binary64.exactDigits rank
  let spare := decimalLength exact - 6
  Decimal.ofScaled (roundHalfEven exact (10 ^ spare)) ((spare : Int) - 1074)

/-- Lengths are positional from `10 ^ -4` up to below `10 ^ 6`, and whole ones
have no fraction. -/
def layout : Layout where
  plainFrom := -4
  plainBelow := 6
  keepFraction := false

/-- Writes a length: rounds to four decimal places, goes back to the nearest
double, and writes that one with six significant digits. -/
def format : Binary64 → String
  | .nan => "nan"
  | .infinite negative => Binary64.signed negative "inf"
  | .finite negative rank =>
    let rounded := rankOfTenThousandths (tenThousandths rank)
    if rounded = 0 then "0"
    else Binary64.signed negative (String.ofList (layout.write (sixDigits rounded)))

/-- Writes a whole number as a length. -/
def formatInt (n : Int) : Except OptionFault String :=
  let x := Binary64.ofInt n
  if x.isFinite then .ok (format x) else .error .numberTooLarge

/-- Writes a number as a length; truth values count as zero and one. -/
def formatValue : Value → Except OptionFault String
  | .int n => formatInt n
  | .bool b => formatInt b.toInt
  | .double x => .ok (format x)
  | value => .error (.of .indentNotANumber value)

end AlgoBox.Em
