import AlgoBox.Text.Printable

/-!
# Quoted text

How a text is quoted inside a message. The quote is an apostrophe, unless the
text holds an apostrophe and no double quote. The quote itself and the
backslash get a backslash; tab, line feed and carriage return have letters of
their own; every other character that is not printable is written by its code
point with two, four or eight hexadecimal digits.
-/

namespace AlgoBox.Text

/-- The lower-case hexadecimal digits of a number, padded with zeros on the
left to at least `width` digits. -/
def hexDigits (width n : Nat) : List Char :=
  let digits := Nat.toDigits 16 n
  List.replicate (width - digits.length) '0' ++ digits

/-- The quote that a text is put in. -/
def quoteMark (s : List Char) : Char :=
  if s.contains '\'' && !s.contains '"' then '"' else '\''

/-- One character between quotes. -/
def quotedChar (mark c : Char) : List Char :=
  if c = mark ∨ c = '\\' then ['\\', c]
  else if c = '\t' then ['\\', 't']
  else if c = '\n' then ['\\', 'n']
  else if c = '\r' then ['\\', 'r']
  else if isPrintable c then [c]
  else if c.toNat < 0x100 then '\\' :: 'x' :: hexDigits 2 c.toNat
  else if c.toNat < 0x10000 then '\\' :: 'u' :: hexDigits 4 c.toNat
  else '\\' :: 'U' :: hexDigits 8 c.toNat

/-- A text between quotes. -/
def quoted (s : String) : String :=
  let mark := quoteMark s.toList
  String.ofList (mark :: s.toList.flatMap (quotedChar mark) ++ [mark])

example : quoted "it\n" = "'it\\n'" ∧ quoted "it's" = "\"it's\"" := by decide +kernel

end AlgoBox.Text
