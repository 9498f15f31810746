/-!
# Text as markup

Text becomes markup by replacing the characters that markup reserves. The
replacements are passes over the whole text: first the ampersand, so that the
references which later passes write are left alone, then the angle brackets,
and for the body of a formula the two quotes as well.

Markup is collected as pieces and joined once at the end. An empty piece is
never kept, so that it leaves no separator behind.
-/

namespace AlgoBox.Text

/-! ## Escaping -/

/-- Replaces every occurrence of one character. -/
def replaceChar (c : Char) (replacement : List Char) (s : List Char) : List Char :=
  s.flatMap fun x => if x = c then replacement else [x]

/-- Escapes the three characters that would be read as markup in running text. -/
def escapeChars (s : List Char) : List Char :=
  replaceChar '>' "&gt;".toList (replaceChar '<' "&lt;".toList (replaceChar '&' "&amp;".toList s))

/-- Escapes the reserved characters and both quotes. -/
def escapeQuotedChars (s : List Char) : List Char :=
  replaceChar '\'' "&#x27;".toList (replaceChar '"' "&quot;".toList (escapeChars s))

/-- Markup that shows a text. -/
def escape (s : String) : String := String.ofList (escapeChars s.toList)

/-- Markup that shows a text and can also stand between quotes. -/
def escapeQuoted (s : String) : String := String.ofList (escapeQuotedChars s.toList)

example : escape "a < b && c" = "a &lt; b &amp;&amp; c" := by decide +kernel

/-! ## Pieces -/

/-- A sequence of pieces of text, none of them empty. -/
structure Pieces where
  toList : List String := []
  ne_empty : ∀ piece ∈ toList, piece ≠ "" := by simp

namespace Pieces

/-- Keeps the pieces of a list that are not empty. -/
def ofList (l : List String) : Pieces where
  toList := l.filter (· ≠ "")
  ne_empty := by simp

/-- Adds a piece at the end; an empty one changes nothing. -/
def append (p : Pieces) (s : String) : Pieces where
  toList := if s = "" then p.toList else p.toList ++ [s]
  ne_empty := by
    have := p.ne_empty
    split <;> grind

/-- The number of pieces. -/
def size (p : Pieces) : Nat := p.toList.length

/-- Joins the pieces with a separator between neighbours. -/
def join (p : Pieces) (separator : String) : String := separator.intercalate p.toList

end Pieces

end AlgoBox.Text
