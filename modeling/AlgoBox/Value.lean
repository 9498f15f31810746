import AlgoBox.Numeric.Shortest
import AlgoBox.Text.Quoted

/-!
# Option values

Options arrive as values of any kind. This module holds the kinds, when a value
counts as true, and how a value is quoted in a message. Not every value can be
quoted: a whole number is only written up to a number of digits.
-/

namespace AlgoBox

open Numeric Text

-- powers of naturals are the core ones, as in the definition of a double
attribute [local instance (high)] instPowNat

/-- A value given for an option. -/
inductive Value where
  | null
  | bool (b : Bool)
  | int (n : Int)
  | double (x : Binary64)
  | text (s : String)
  | list (items : List Value)

namespace Value

/-- Zero, the empty text, the empty list, false and no value count as false;
every other value, NaN included, counts as true. -/
def isTrue : Value → Bool
  | null => false
  | bool b => b
  | int n => n ≠ 0
  | double x => !x.isZero
  | text s => s ≠ ""
  | list items => !items.isEmpty

/-- How truth values are spelled in output. -/
def boolText (b : Bool) : String := if b then "True" else "False"

/-- The number of digits up to which a whole number is written. -/
def digitLimit : Nat := 4300

mutual

/-- A value as a message quotes it, unless a whole number in it is too long. -/
def quoted? : Value → Option String
  | null => some "None"
  | bool b => some (boolText b)
  | int n => if n.natAbs < 10 ^ digitLimit then some (toString n) else none
  | double x => some x.text
  | text s => some (Text.quoted s)
  | list items => do return "[" ++ ", ".intercalate (← quotedAll? items) ++ "]"

/-- The items of a list as a message quotes them. -/
def quotedAll? : List Value → Option (List String)
  | [] => some []
  | v :: rest => do return (← v.quoted?) :: (← quotedAll? rest)

end

end Value

end AlgoBox
