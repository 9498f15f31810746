import AlgoBox.Html.Fragment
import AlgoBox.Options.Basic

/-!
# Pages

A page collects the fragments of one output, from top to bottom. It knows how
many blocks are open around the next fragment and whether a line is open. Text
is held back until something else follows, so that neighbouring pieces of text
become one fragment.

Closing a line ends with its text written; opening a line or a block closes the
open line first. So lines never overlap.
-/

namespace AlgoBox.Html

open Numeric Text

/-- What an output depends on besides the tree: the options, and what turns the
body of a formula into markup. -/
structure Setup where
  options : Options
  typeset : String → String

/-- Why a tree cannot be rendered: a node stands where none of its type can be
rendered, a command or an escaped character is not known, or an option that is
written into the output is not a text. -/
inductive RenderFault where
  | unexpectedNode (typeName : String)
  | unexpectedCommand (name : String)
  | unknownEscape (escape : String)
  | notText (value : Value)

/-- What is told about a tree that cannot be rendered. -/
def RenderFault.message : RenderFault → String
  | unexpectedNode typeName => "Unexpected node of type " ++ typeName.capitalize
  | unexpectedCommand name => "Unexpected command " ++ name
  | unknownEscape escape => quoted escape
  | notText _ => "an option that is written is not a text"

/-- The output so far: the fragments from top to bottom, the number of blocks
open around the next one, whether a line is open, the pieces of text that are
held back, the number of code lines, counted anew in every numbered environment,
and the number of captioned algorithms. -/
structure Page where
  fragments : Array Fragment := #[]
  depth : Nat := 0
  lineOpen : Bool := false
  pending : Array String := #[]
  lineCount : Nat := 0
  captionCount : Nat := 0

/-- Computations that write a page and may meet a node that cannot be rendered.
The page outlives a fault. -/
abbrev RenderM := EStateM RenderFault Page

/-- The gap between a line number and the margin of the block: the double
nearest to 0.3 em. -/
def lineNumberGap : Binary64 := Binary64.ofDecimal false 3 (-1)

/-- How far left of a line its number stands: the indent and the gap for every
block around the line but the innermost. -/
def lineNumberOffset (indent : Binary64) (depth : Nat) : Binary64 :=
  Binary64.scale (depth - 1) (indent.add lineNumberGap)

/-- Markup of an option value. A value that counts as false gives nothing. -/
def escapeValue (value : Value) : RenderM String :=
  if value.isTrue then
    match value with
    | .text s => return escape s
    | _ => throw (.notText value)
  else return ""

namespace Page

/-- Writes a fragment. -/
def emit (fragment : Fragment) : RenderM Unit :=
  modify fun page => { page with fragments := page.fragments.push fragment }

/-- Holds back a piece of text. -/
def holdText (text : String) : RenderM Unit :=
  modify fun page => { page with pending := page.pending.push text }

/-- Writes the text that is held back. -/
def releaseText : RenderM Unit := do
  let page ← get
  if !page.pending.isEmpty then
    emit (.text (String.join page.pending.toList))
    modify fun page => { page with pending := #[] }

/-- Writes a fragment behind the text that is held back. -/
def write (fragment : Fragment) : RenderM Unit := do
  releaseText
  emit fragment

/-- Writes a keyword. -/
def writeKeyword (word : String) : RenderM Unit := write (.keyword word)

/-- Closes the open line, if there is one. -/
def closeLine : RenderM Unit := do
  if (← get).lineOpen then
    releaseText
    emit .closeSpan
    emit .closeLine
    modify fun page => { page with lineOpen := false }

/-- Writes the number of a code line. -/
def numberLine (options : Options) : RenderM Unit := do
  let page ← get
  let punc ← escapeValue options.lineNumberPunc
  emit (.lineNumber (Em.format (lineNumberOffset options.indent.toBinary64 page.depth))
    page.lineCount punc)

/-- Opens a line. Inside a block it is a code line, and numbered if lines are. -/
def openLine (options : Options) : RenderM Unit := do
  closeLine
  modify fun page => { page with lineOpen := true }
  if 0 < (← get).depth then
    modify fun page => { page with lineCount := page.lineCount + 1 }
    emit (.openLine .code)
    if options.lineNumber.isTrue then numberLine options
  else
    emit (.openLine (.hanging (Em.format options.indent.toBinary64)))
  emit (.openSpan .content)

/-- Opens a line unless one is open. -/
def joinLine (options : Options) : RenderM Unit := do
  if !(← get).lineOpen then openLine options

/-- Opens a container. -/
def openDiv (div : Div) : RenderM Unit := emit (.openDiv div)

/-- Closes the innermost container and the line in it. -/
def closeDiv : RenderM Unit := do
  closeLine
  emit .closeDiv

/-- Opens a block. -/
def openBlock (options : Options) : RenderM Unit := do
  closeLine
  emit (.openDiv (.block (Em.format options.indent.toBinary64)))
  modify fun page => { page with depth := page.depth + 1 }

/-- Closes a block. -/
def closeBlock : RenderM Unit := do
  closeDiv
  modify fun page => { page with depth := page.depth - 1 }

/-- Counts a captioned algorithm. -/
def countCaption : RenderM Unit :=
  modify fun page => { page with captionCount := page.captionCount + 1 }

/-- Starts counting lines anew. -/
def resetLineCount : RenderM Unit := modify fun page => { page with lineCount := 0 }

end Page

end AlgoBox.Html
