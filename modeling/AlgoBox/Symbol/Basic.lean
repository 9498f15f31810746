import AlgoBox.Text.Quoted

/-!
# Symbols

The symbols that markup is made of: command words, braces, runs of ordinary
characters, escaped characters, formulas, and the end of the source.
-/

namespace AlgoBox

/-- The kind of a symbol: a backslash and letters, a brace, a run of characters
that none of the others claims, a backslash and a reserved character, a formula
between dollar signs, or the end of the source. -/
inductive Symbol.Kind where
  | word
  | openBrace
  | closeBrace
  | ordinary
  | special
  | math
  | endOfSource
deriving DecidableEq

/-- The name of a kind in messages. -/
def Symbol.Kind.name : Symbol.Kind → String
  | word => "FUNC"
  | openBrace => "OPEN"
  | closeBrace => "CLOSE"
  | ordinary => "ORDINARY"
  | special => "SPECIAL"
  | math => "MATH"
  | endOfSource => "EOF"

/-- A symbol of a source with the offsets of its first character and just past
its last. Its text is the part that matters: a word without its backslash, a
formula without its dollars, otherwise all of it. The end of the source has
none. -/
structure Symbol where
  kind : Symbol.Kind
  text : Option String
  start : Nat
  stop : Nat
deriving DecidableEq

namespace Symbol

/-- The end of a source of the given length. -/
def atEnd (length : Nat) : Symbol := ⟨.endOfSource, none, length, length⟩

/-- The length up to which a text is shown in full. -/
def shownLength : Nat := 20

/-- A text cut to the length that is shown, with dots for what is left out. -/
def shorten (s : List Char) : List Char :=
  if shownLength < s.length then s.take (shownLength - 3) ++ ['.', '.', '.'] else s

/-- A symbol on one line: its kind, its text in quotes and its offset. -/
def describe (kind : Kind) (text : Option String) (offset : Int) : String :=
  "Symbol(" ++ kind.name ++ ", "
    ++ Text.quoted (String.ofList (shorten (text.getD "").toList))
    ++ ", @" ++ toString offset ++ ")"

end Symbol

end AlgoBox
