/-!
# Decimal notation

A decimal is its significant digits and the exponent of the first of them. It
is laid out positionally while the exponent lies in a window, and otherwise
with an exponent of a sign and at least two digits. `Layout` records the window
and whether a whole number keeps a fraction.

All decimal and binary rounding of lengths goes through one function, which
rounds a quotient of naturals to the nearest natural.
-/

namespace AlgoBox.Numeric

/-! ## Rounding -/

/-- The natural nearest to `num / den`, ties to even. -/
def roundHalfEven (num den : Nat) : Nat :=
  let floor := num / den
  match compare (2 * (num % den)) den with
  | .lt => floor
  | .gt => floor + 1
  | .eq => if floor % 2 = 0 then floor else floor + 1

/-- The number of decimal digits of a natural; zero has one. -/
def decimalLength (n : Nat) : Nat := (Nat.toDigits 10 n).length

/-! ## Notation -/

/-- The decimal `d₁.d₂…dₙ × 10 ^ exponent`, the first digit not zero. -/
structure Decimal where
  digits : List Char
  exponent : Int

/-- The decimal of `n * 10 ^ exponent`, without trailing zeros. -/
def Decimal.ofScaled (n : Nat) (exponent : Int) : Decimal where
  digits := ((Nat.toDigits 10 n).reverse.dropWhile (· = '0')).reverse
  exponent := exponent + (decimalLength n - 1)

/-- How decimals are laid out: positionally where the exponent is at least
`plainFrom` and less than `plainBelow`, and whether a whole number then keeps
one zero after the point. -/
structure Layout where
  plainFrom : Int
  plainBelow : Int
  keepFraction : Bool

namespace Layout

/-- The digits with the point where the exponent puts it. -/
def positional (layout : Layout) (d : Decimal) : List Char :=
  if d.exponent < 0 then
    '0' :: '.' :: List.replicate (-d.exponent - 1).toNat '0' ++ d.digits
  else
    let whole := d.exponent.toNat + 1
    let fraction := d.digits.drop whole
    d.digits.take whole ++ List.replicate (whole - d.digits.length) '0' ++
      if fraction ≠ [] then '.' :: fraction
      else if layout.keepFraction then ['.', '0']
      else []

/-- One digit before the point and the exponent after the digits. -/
def scientific (d : Decimal) : List Char :=
  let exponent := Nat.toDigits 10 d.exponent.natAbs
  d.digits.take 1 ++
    (if d.digits.length ≤ 1 then [] else '.' :: d.digits.drop 1) ++
    ['e', if d.exponent < 0 then '-' else '+'] ++
    List.replicate (2 - exponent.length) '0' ++ exponent

/-- A decimal in the notation that its exponent calls for. -/
def write (layout : Layout) (d : Decimal) : List Char :=
  if layout.plainFrom ≤ d.exponent ∧ d.exponent < layout.plainBelow then layout.positional d
  else scientific d

end Layout

end AlgoBox.Numeric
