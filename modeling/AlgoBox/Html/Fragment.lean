import AlgoBox.Text.Markup

/-!
# Fragments of markup

Output is a sequence of fragments: opening and closing tags, and pieces of
content that open and close nothing. Keeping them apart until the end lets the
nesting of the output be read off the sequence.
-/

namespace AlgoBox.Html

open Text

/-- A container: of a document, an algorithm, an algorithmic environment, or a
block with its left margin in em. -/
inductive Div where
  | document
  | algorithm (captioned : Bool)
  | algorithmic (numbered : Bool)
  | block (margin : String)
deriving DecidableEq

/-- A line inside a block, or one outside all blocks with its hanging indent in
em. -/
inductive Line where
  | code
  | hanging (indent : String)
deriving DecidableEq

/-- A stretch of a line: what it holds besides its number, a comment, a phrase,
or the rest of a phrase behind a switch of the font or size. -/
inductive Span where
  | content
  | comment
  | phrase
  | font (name : String)
  | size (name : String)
deriving DecidableEq

/-- A fragment of the output. The number of a line comes with how far left of
the line it stands, in em, and with the markup of what follows it. Text is
markup already, and so is what a formula is turned into. -/
inductive Fragment where
  | openDiv (div : Div)
  | closeDiv
  | openLine (line : Line)
  | closeLine
  | openSpan (span : Span)
  | closeSpan
  | lineNumber (offset : String) (number : Nat) (punc : String)
  | keyword (word : String)
  | functionName (name : String)
  | math (body markup : String)
  | text (markup : String)
deriving DecidableEq

/-- The start tag of a container. -/
def Div.tag : Div → String
  | document => "<div class=\"pseudo\">"
  | algorithm captioned =>
    "<div class=\"ps-algorithm" ++ (if captioned then " with-caption" else "") ++ "\">"
  | algorithmic numbered =>
    "<div class=\"ps-algorithmic" ++ (if numbered then " with-linenum" else "") ++ "\">"
  | block margin => "<div class=\"ps-block ps-outer-block\" style=\"margin-left:" ++ margin ++ "em;\">"

/-- The start tag of a line. -/
def Line.tag : Line → String
  | code => "<p class=\"ps-line ps-code\">"
  | hanging indent =>
    "<p class=\"ps-line\" style=\"text-indent:-" ++ indent ++ "em;padding-left:" ++ indent ++ "em;\">"

/-- The start tag of a stretch of a line. -/
def Span.tag : Span → String
  | content => "<span class=\"ps-line-content\">"
  | comment => "<span class=\"ps-comment\">"
  | phrase => "<span>"
  | font name => "<span class=\"ps-font-" ++ name ++ "\">"
  | size name => "<span class=\"ps-size-" ++ name ++ "\">"

namespace Fragment

/-- The markup of a fragment. -/
def markup : Fragment → String
  | openDiv div => div.tag
  | closeDiv => "</div>"
  | openLine line => line.tag
  | closeLine => "</p>"
  | openSpan span => span.tag
  | closeSpan => "</span>"
  | lineNumber offset number punc =>
    "<span class=\"ps-linenum\" style=\"left:-" ++ offset ++ "em;\">" ++ toString number ++ punc
      ++ "</span>"
  | keyword word => "<span class=\"ps-keyword\">" ++ escape word ++ "</span>"
  | functionName name => "<span class=\"ps-funcname\">" ++ escape name ++ "</span>"
  | math _ markup => markup
  | text markup => markup

/-- The formula of a fragment. -/
def formula? : Fragment → Option String
  | math body _ => some body
  | _ => none

/-- The markup of a sequence of fragments, one on a line; a fragment without
markup leaves no line. -/
def join (fragments : List Fragment) : String :=
  (Pieces.ofList (fragments.map markup)).join "\n"

end Fragment

/-- The markup of a formula that the reader's browser typesets. -/
def delimited (body : String) : String :=
  "<span class=\"math notranslate nohighlight\">\\(" ++ escapeQuoted body ++ "\\)</span>"

end AlgoBox.Html
