import AlgoBox.Text.Quoted

/-!
# JSON

The values that a tree is written with: no fractions, and objects as lists of
members in the order in which they are written.

JSON is written on one line, or with every item on a line of its own and a
number of spaces for each level. Strings keep every character but the quote, the
backslash and the control characters below the space.
-/

namespace AlgoBox

/-- A JSON value. Numbers are whole; an object is the list of its members. -/
inductive Json where
  | null
  | bool (b : Bool)
  | int (n : Int)
  | string (s : String)
  | array (items : List Json)
  | object (members : List (String × Json))

namespace Json

/-! ## Writing -/

/-- How items are separated: on one line with a space behind each comma, or each
on a line of its own with a number of spaces for each level. -/
inductive Style where
  | compact
  | indented (width : Nat)

/-- The style of an indent, if there is one; an indent below zero is none wide. -/
def Style.ofIndent : Option Int → Style
  | none => compact
  | some width => indented width.toNat

/-- What stands in front of an item at a level. -/
def Style.lineStart (level : Nat) : Style → List Char
  | compact => []
  | indented width => '\n' :: List.replicate (width * level) ' '

/-- What stands between two items at a level. -/
def Style.separator (level : Nat) : Style → List Char
  | compact => [',', ' ']
  | indented width => ',' :: (indented width).lineStart level

/-- One character of a string. -/
def escapeChar (c : Char) : List Char :=
  if c = '"' then ['\\', '"']
  else if c = '\\' then ['\\', '\\']
  else if c = '\n' then ['\\', 'n']
  else if c = '\r' then ['\\', 'r']
  else if c = '\t' then ['\\', 't']
  else if c = '\x08' then ['\\', 'b']
  else if c = '\x0c' then ['\\', 'f']
  else if c.toNat < 0x20 then '\\' :: 'u' :: Text.hexDigits 4 c.toNat
  else [c]

/-- A string between quotes. -/
def quote (s : String) : List Char := '"' :: s.toList.flatMap escapeChar ++ ['"']

mutual

/-- Writes a value at a level in front of what follows it. -/
def write (style : Style) (level : Nat) : Json → List Char → List Char
  | null, rest => 'n' :: 'u' :: 'l' :: 'l' :: rest
  | bool true, rest => 't' :: 'r' :: 'u' :: 'e' :: rest
  | bool false, rest => 'f' :: 'a' :: 'l' :: 's' :: 'e' :: rest
  | int n, rest => (toString n).toList ++ rest
  | string s, rest => quote s ++ rest
  | array [], rest => '[' :: ']' :: rest
  | array (item :: items), rest =>
    '[' :: (style.lineStart (level + 1) ++ write style (level + 1) item
      (writeItems style (level + 1) items (style.lineStart level ++ ']' :: rest)))
  | object [], rest => '{' :: '}' :: rest
  | object ((key, value) :: members), rest =>
    '{' :: (style.lineStart (level + 1) ++ quote key ++ ':' :: ' ' :: write style (level + 1) value
      (writeMembers style (level + 1) members (style.lineStart level ++ '}' :: rest)))

/-- Writes the items behind the first one of an array. -/
def writeItems (style : Style) (level : Nat) : List Json → List Char → List Char
  | [], rest => rest
  | item :: items, rest =>
    style.separator level ++ write style level item (writeItems style level items rest)

/-- Writes the members behind the first one of an object. -/
def writeMembers (style : Style) (level : Nat) : List (String × Json) → List Char → List Char
  | [], rest => rest
  | (key, value) :: members, rest =>
    style.separator level ++ quote key ++ ':' :: ' ' :: write style level value
      (writeMembers style level members rest)

end

/-- The text of a value. -/
def text (style : Style) (json : Json) : String := String.ofList (json.write style 0 [])

end Json

end AlgoBox
