import AlgoBox.Numeric.Binary64
import AlgoBox.Numeric.Decimal

/-!
# Shortest decimals

A double is written with the fewest digits that read back to it. Among the
decimals of that many digits the one nearest to the exact value is taken, and
the even one of two that are equally near.
-/

namespace AlgoBox.Numeric.Binary64

-- powers of naturals are the core ones, as in the definition of a double
attribute [local instance (high)] instPowNat

/-- The exact value of a rank in units of `10 ^ -1074`: half a unit of the last
binary place is five of the next decimal place, so no digit is lost. -/
def exactDigits (rank : Nat) : Nat := units rank * 5 ^ (1074 : Nat)

/-- The decimal `digits * 10 ^ exponent` is nearer to this rank than to any other. -/
def readsBack (rank digits : Nat) (exponent : Int) : Bool :=
  match ofDecimal false digits exponent with
  | .finite _ r => r.val = rank
  | _ => false

/-- Of the two decimals of `count` digits around the exact value, the one that
reads back and is nearer, if any does. -/
def decimalOfLength? (rank count : Nat) : Option Decimal :=
  let exact := exactDigits rank
  let spare := decimalLength exact - count
  let floor := exact / 10 ^ spare
  let exponent := (spare : Int) - 1074
  let take (digits : Nat) := some (Decimal.ofScaled digits exponent)
  match readsBack rank floor exponent, readsBack rank (floor + 1) exponent with
  | true, true => take (roundHalfEven exact (10 ^ spare))
  | true, false => take floor
  | false, true => take (floor + 1)
  | false, false => none

/-- The shortest decimal that reads back to a positive double. Seventeen digits
always do; the exact value stands behind the search. -/
def shortest (rank : Nat) : Decimal :=
  ((List.range' 1 17).findSome? (decimalOfLength? rank)).getD
    (Decimal.ofScaled (exactDigits rank) (-1074))

/-- Numbers in messages and answers: positional from `10 ^ -4` up to below
`10 ^ 16`, with a fraction even when it is zero. -/
def layout : Layout where
  plainFrom := -4
  plainBelow := 16
  keepFraction := true

/-- A minus sign in front of the text of a negative number. -/
def signed (negative : Bool) (text : String) : String := if negative then "-" ++ text else text

/-- The text of a double. -/
def text : Binary64 → String
  | .nan => "nan"
  | .infinite negative => signed negative "inf"
  | .finite negative rank =>
    signed negative
      (if rank.val = 0 then "0.0" else String.ofList (layout.write (shortest rank)))

end AlgoBox.Numeric.Binary64
