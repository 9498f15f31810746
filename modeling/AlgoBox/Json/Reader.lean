import AlgoBox.Json.Basic

/-!
# Reading JSON

The value that a text stands for. Blanks may surround every value and every
mark; a string holds characters as they are, except quotes, backslashes and the
control characters below the space, and it holds escapes; a character beyond the
basic plane may be escaped as a pair of units, while half a pair stands for
nothing. A text is one value and nothing else.

Numbers are whole: one with a fraction or an exponent is refused. The members of
an object are kept in their order, and so is a name that comes twice.
-/

namespace AlgoBox.Json

/-- Reads something at the start of a text and gives the rest of the text. -/
abbrev Parser (β : Type) := List Char → Option (β × List Char)

/-- The characters that may surround values and marks. -/
def isBlank (c : Char) : Bool := c = ' ' || c = '\t' || c = '\n' || c = '\r'

/-- A text from its first character on that is not blank. -/
def skipBlanks (text : List Char) : List Char := text.dropWhile isBlank

/-! ## Strings -/

/-- The value of a hexadecimal digit. -/
def hexValue? (c : Char) : Option Nat :=
  if '0' ≤ c ∧ c ≤ '9' then some (c.toNat - '0'.toNat)
  else if 'a' ≤ c ∧ c ≤ 'f' then some (c.toNat - 'a'.toNat + 10)
  else if 'A' ≤ c ∧ c ≤ 'F' then some (c.toNat - 'A'.toNat + 10)
  else none

/-- A unit of two bytes, as four hexadecimal digits. -/
def unit? : Parser Nat
  | a :: b :: c :: d :: rest => do
    let high := (← hexValue? a) * 16 + (← hexValue? b)
    let low := (← hexValue? c) * 16 + (← hexValue? d)
    return (high * 256 + low, rest)
  | _ => none

/-- The unit is the first one of a pair. -/
def isLeading (unit : Nat) : Bool := 0xD800 ≤ unit && unit < 0xDC00

/-- The unit is the second one of a pair. -/
def isTrailing (unit : Nat) : Bool := 0xDC00 ≤ unit && unit < 0xE000

/-- The character of a unit, or of a pair of them with another escape in front
of the second one. -/
def unicode? (text : List Char) : Option (Char × List Char) := do
  let (unit, rest) ← unit? text
  if isLeading unit then
    match rest with
    | '\\' :: 'u' :: rest =>
      let (second, rest) ← unit? rest
      if isTrailing second then
        return (Char.ofNat (0x10000 + (unit - 0xD800) * 0x400 + (second - 0xDC00)), rest)
      else none
    | _ => none
  else if isTrailing unit then none
  else return (Char.ofNat unit, rest)

/-- The letters of escapes and what they stand for. -/
def escapeLetters : List (Char × Char) :=
  [('"', '"'), ('\\', '\\'), ('/', '/'), ('b', '\x08'), ('f', '\x0c'), ('n', '\n'), ('r', '\r'),
   ('t', '\t')]

/-- What stands behind the backslash of an escape. -/
def escape? : Parser Char
  | [] => none
  | letter :: rest =>
    if letter = 'u' then unicode? rest
    else (escapeLetters.lookup letter).map (·, rest)

/-- A character of a string. -/
def character? : Parser Char
  | [] => none
  | c :: rest =>
    if c = '\\' then escape? rest
    else if c.toNat < 0x20 then none
    else some (c, rest)

/-- The characters up to a quote, fewer than `bound`. -/
def characters? : Nat → Parser (List Char)
  | 0, _ => none
  | bound + 1, text =>
    if text.head? = some '"' then some ([], text.tail)
    else do
      let (c, rest) ← character? text
      let (cs, rest) ← characters? bound rest
      return (c :: cs, rest)

/-- A string behind its opening quote. -/
def string? (text : List Char) : Option (String × List Char) := do
  let (cs, rest) ← characters? (text.length + 1) text
  return (String.ofList cs, rest)

/-! ## Numbers -/

/-- The characters that go on with a number behind its whole part. -/
def goesOn (c : Char) : Bool := c = '.' || c = 'e' || c = 'E'

/-- A whole number without a sign. None but zero itself starts with a zero. -/
def natural? (text : List Char) : Option (Nat × List Char) :=
  let digits := text.takeWhile Char.isDigit
  let rest := text.dropWhile Char.isDigit
  if digits = [] ∨ (digits.head? = some '0' ∧ digits ≠ ['0']) ∨ rest.head?.any goesOn then none
  else some (Nat.ofDigitChars 10 digits 0, rest)

/-- A whole number. -/
def integer? (text : List Char) : Option (Int × List Char) :=
  if text.head? = some '-' then (natural? text.tail).map fun (n, rest) => (-(n : Int), rest)
  else (natural? text).map fun (n, rest) => ((n : Int), rest)

/-! ## Arrays and objects -/

section Sequences

variable {β : Type}

/-- What `read` reads, one after the other with commas between, up to the mark
`close`; at least one and at most `bound`. -/
def some? (close : Char) (read : Parser β) : Nat → Parser (List β)
  | 0, _ => none
  | bound + 1, text => do
    let (item, rest) ← read text
    match skipBlanks rest with
    | [] => none
    | mark :: rest =>
      if mark = close then return ([item], rest)
      else if mark = ',' then
        let (items, rest) ← some? close read bound rest
        return (item :: items, rest)
      else none

/-- What `read` reads, with commas between, up to the mark `close`; there may be
nothing in front of it. -/
def any? (close : Char) (read : Parser β) (text : List Char) : Option (List β × List Char) :=
  match skipBlanks text with
  | [] => none
  | mark :: rest =>
    if mark = close then some ([], rest)
    else some? close read text.length text

end Sequences

/-- A member of an object, whose value is what `read` reads. -/
def member? (read : Parser Json) (text : List Char) : Option ((String × Json) × List Char) :=
  match skipBlanks text with
  | '"' :: rest => do
    let (name, rest) ← string? rest
    match skipBlanks rest with
    | ':' :: rest => do
      let (value, rest) ← read rest
      return ((name, value), rest)
    | _ => none
  | _ => none

/-! ## Values -/

/-- A value that is nested fewer than `bound` times. -/
def value? : Nat → Parser Json
  | 0, _ => none
  | bound + 1, text =>
    match skipBlanks text with
    | 'n' :: 'u' :: 'l' :: 'l' :: rest => some (.null, rest)
    | 't' :: 'r' :: 'u' :: 'e' :: rest => some (.bool true, rest)
    | 'f' :: 'a' :: 'l' :: 's' :: 'e' :: rest => some (.bool false, rest)
    | '"' :: rest => (string? rest).map fun (s, rest) => (.string s, rest)
    | '[' :: rest => (any? ']' (value? bound) rest).map fun (items, rest) => (.array items, rest)
    | '{' :: rest =>
      (any? '}' (member? (value? bound)) rest).map fun (members, rest) => (.object members, rest)
    | text => (integer? text).map fun (n, rest) => (.int n, rest)

/-- The value that a text stands for. -/
def read? (text : String) : Option Json := do
  let (json, rest) ← value? (text.length + 1) text.toList
  if skipBlanks rest = [] then return json else none

example :
    read? " [ -1 ,\"\\u0041\\/\\ud83d\\ude00\"\n]" = some (.array [.int (-1), .string "A/😀"]) ∧
      read? "[01]" = none ∧ read? "\"\\ud83d\"" = none :=
  ⟨rfl, rfl, rfl⟩

end AlgoBox.Json
