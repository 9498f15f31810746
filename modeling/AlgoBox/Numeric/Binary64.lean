import AlgoBox.Numeric.Decimal

/-!
# Double-precision numbers

The binary format of lengths: 53 significant bits and exponents down to
`2 ^ -1074`, with infinities and one NaN. A finite number is its sign and its
rank among the non-negative doubles, so that zero has rank zero, the least
positive double rank one, and order on ranks is order on values. Values are
exact naturals: multiples of the unit `2 ^ -1074`.

## Main definitions

* `Binary64.units`: the value of a rank, in units.
* `Binary64.nearest`: the double nearest to an exact fraction, ties to even.
-/

namespace AlgoBox.Numeric

-- powers of naturals are the core ones, whatever else is imported
attribute [local instance (high)] instPowNat

/-- The number of doubles between two neighbouring powers of two. -/
def binadeSize : Nat := 2 ^ (52 : Nat)

/-- The rank that infinity would have: there are `2047` binades of finite
doubles, the lowest holding zero and the subnormal numbers. -/
def infinityRank : Nat := 2047 * binadeSize

/-- A double-precision number. A finite one is its sign and its rank among the
non-negative doubles. -/
inductive Binary64 where
  | nan
  | infinite (negative : Bool)
  | finite (negative : Bool) (rank : Fin infinityRank)
deriving DecidableEq

namespace Binary64

/-- The binary exponent, in units, of the gaps around a rank. -/
def gapExponent (rank : Nat) : Nat := rank / binadeSize - 1

/-- The value of a rank in units of `2 ^ -1074`. -/
def units (rank : Nat) : Nat :=
  (rank - gapExponent rank * binadeSize) * 2 ^ gapExponent rank

/-- The rank of the double nearest to `num / den` units, ties to even. The
exponent is that of the quotient; rounding up to the next power of two lands on
the first rank of the next binade, which is where it belongs. -/
def nearestRank (num den : Nat) : Nat :=
  let gap := (num / den).log2 - 52
  roundHalfEven num (den * 2 ^ gap) + gap * binadeSize

/-- The number of a sign and a rank; ranks past the largest finite double are
infinite. -/
def ofRank (negative : Bool) (rank : Nat) : Binary64 :=
  if h : rank < infinityRank then .finite negative ⟨rank, h⟩ else .infinite negative

/-- The double nearest to `num / den` units with the given sign, ties to even. -/
def nearest (negative : Bool) (num den : Nat) : Binary64 :=
  ofRank negative (nearestRank num den)

/-- Units in one. -/
def unitsPerOne : Nat := 2 ^ (1074 : Nat)

/-- The double nearest to an integer. -/
def ofInt (n : Int) : Binary64 := nearest (n < 0) (n.natAbs * unitsPerOne) 1

/-- The double nearest to `digits * 10 ^ exponent`. Exponents that put the value
beyond every finite double, or below half the least one, are settled without
computing the power. -/
def ofDecimal (negative : Bool) (digits : Nat) (exponent : Int) : Binary64 :=
  let magnitude := decimalLength digits + exponent
  if digits = 0 ∨ magnitude < -330 then ofRank negative 0
  else if 310 < magnitude then .infinite negative
  else
    nearest negative (digits * 10 ^ exponent.toNat * unitsPerOne) (10 ^ (-exponent).toNat)

/-- Neither NaN nor infinite. -/
def isFinite : Binary64 → Bool
  | .finite .. => true
  | _ => false

/-- Equal to zero, of either sign. -/
def isZero : Binary64 → Bool
  | .finite _ rank => rank.val = 0
  | _ => false

/-- Below zero; the negative zero is not. -/
def isNegative : Binary64 → Bool
  | .nan => false
  | .infinite negative => negative
  | .finite negative rank => negative && rank.val ≠ 0

/-- The exact value of a finite number as a signed count of units. -/
def signedUnits (negative : Bool) (rank : Nat) : Int :=
  if negative then -(units rank : Int) else units rank

/-- The rounded sum. A sum of zeros is negative only if both are. -/
def add : Binary64 → Binary64 → Binary64
  | .finite n r, .finite m s =>
    let sum := signedUnits n r + signedUnits m s
    if sum = 0 then ofRank (n && m) 0 else nearest (sum < 0) sum.natAbs 1
  | .infinite n, .infinite m => if n = m then .infinite n else .nan
  | .infinite n, .finite .. => .infinite n
  | .finite .., .infinite m => .infinite m
  | _, _ => .nan

/-- The rounded product of a natural and a double. -/
def scale (n : Nat) : Binary64 → Binary64
  | .finite negative rank => nearest negative (n * units rank) 1
  | .infinite negative => if n = 0 then .nan else .infinite negative
  | .nan => .nan

end Binary64

end AlgoBox.Numeric
