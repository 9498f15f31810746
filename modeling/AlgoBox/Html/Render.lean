import AlgoBox.Html.Page
import AlgoBox.Node.Basic

/-!
# Rendering

A tree is walked once, and every node writes itself onto the page: one container
for each environment, an indented container for each block, and one line for
each statement. Comments and calls join the open line and open one only if there
is none. The last caption of an algorithm is written before its other parts, and
the other captions not at all.
-/

namespace AlgoBox

open Html Page

variable {α : Type}

/-- The keyword in front of the text of a command; a plain statement has none. -/
def Html.commandLabel? (name : String) : Option String :=
  [("STATE", ""), ("ENSURE", "Ensure:"), ("REQUIRE", "Require:"), ("PRINT", "print"),
   ("RETURN", "return")].lookup name

/-- The markup of an escaped character. -/
def Html.escapeMarkup? (escape : String) : Option String :=
  [("\\\\", "<br/>"), ("\\\x7b", "\x7b"), ("\\\x7d", "\x7d"), ("\\$", "$"), ("\\&", "&"),
   ("\\#", "#"), ("\\%", "%"), ("\\_", "_")].lookup escape

/-- Renders a leaf outside the reach of switches. -/
def Leaf.render (setup : Setup) (leaf : Leaf) : RenderM Unit :=
  match leaf with
  | .ordinary content => holdText (Text.escape content)
  | .math body => write (.math body (setup.typeset body))
  | .special escape =>
    match escapeMarkup? escape with
    | some markup => holdText markup
    | none => throw (.unknownEscape escape)
  | .bool keyword => writeKeyword (Text.lower keyword)
  | .size _ | .font _ => throw (.unexpectedNode leaf.typeName)

/-- The stretch that a switch opens. -/
def Leaf.switch? : Leaf → Option Html.Span
  | .size name => some (.size name)
  | .font name => some (.font name)
  | _ => none

/-- Closes a number of stretches. -/
def Html.closeSpans : Nat → RenderM Unit
  | 0 => return
  | count + 1 => do
    emit .closeSpan
    closeSpans count

/-- A line for the caption of the algorithm counted last, with its text. -/
def Html.captionLine (setup : Setup) (text : RenderM Unit) : RenderM Unit := do
  openLine setup.options
  writeKeyword ("Algorithm " ++ toString (← get).captionCount)
  text
  closeLine

mutual

/-- Renders a node. -/
def Node.render (setup : Setup) : Node α → RenderM Unit
  | .root _ children => do
    openDiv .document
    Node.renderAll setup children
    closeDiv
  | .algorithm _ children => do
    let captioned := children.any Node.isCaption
    if captioned then countCaption
    openDiv (.algorithm captioned)
    Node.renderLastCaption setup children
    Node.renderParts setup children
    closeDiv
  | .caption _ words => captionLine setup (words.render setup)
  | .algorithmic _ children => do
    let numbered := setup.options.lineNumber.isTrue
    if numbered then resetLineCount
    openDiv (.algorithmic numbered)
    Node.renderAll setup children
    closeDiv
  | .block _ children => do
    openBlock setup.options
    Node.renderAll setup children
    closeBlock
  | .function _ kind name params body => do
    openLine setup.options
    writeKeyword (Text.lower kind)
    write (.functionName name)
    holdText "("
    params.render setup
    holdText ")"
    Node.renderBody setup body
    openLine setup.options
    writeKeyword ("end " ++ Text.lower kind)
  | .conditional _ branches hasElse elseBody => do
    Branch.renderAll setup branches
    if hasElse then
      openLine setup.options
      writeKeyword "else"
      Node.renderBody setup elseBody
    openLine setup.options
    writeKeyword "end if"
  | .loop _ keyword cond body => do
    openLine setup.options
    writeKeyword (Text.lower keyword)
    cond.render setup
    writeKeyword "do"
    Node.renderBody setup body
    openLine setup.options
    writeKeyword ("end " ++ Text.lower keyword)
  | .command _ name words => do
    match commandLabel? name with
    | none => throw (.unexpectedCommand name)
    | some label =>
      openLine setup.options
      if label ≠ "" then writeKeyword label
      words.render setup
  | .call _ name args => do
    joinLine setup.options
    write (.functionName name)
    holdText "("
    args.render setup
    holdText ")"
  | .comment _ words => do
    joinLine setup.options
    write (.openSpan .comment)
    holdText ((← escapeValue setup.options.commentSymbol) ++ " ")
    words.render setup
    write .closeSpan
  | .text words => words.render setup
  | .leaf _ item => item.render setup
  | node@(.bare _) | node@(.branch _) => throw (.unexpectedNode node.typeName)

/-- Renders a phrase; switches reach to its end. -/
def Phrase.render (setup : Setup) : Phrase α → RenderM Unit
  | .mk _ items => do
    write (.openSpan .phrase)
    let switches ← Node.renderItems setup items
    releaseText
    closeSpans switches
    emit .closeSpan

/-- Renders the items of a phrase and gives the number of switches among them. -/
def Node.renderItems (setup : Setup) : List (Node α) → RenderM Nat
  | [] => return 0
  | .leaf _ item :: rest => do
    match item.switch? with
    | some span =>
      write (.openSpan span)
      return (← Node.renderItems setup rest) + 1
    | none =>
      item.render setup
      Node.renderItems setup rest
  | node :: rest => do
    node.render setup
    Node.renderItems setup rest

/-- Renders nodes one after the other. -/
def Node.renderAll (setup : Setup) : List (Node α) → RenderM Unit
  | [] => return
  | node :: rest => do
    node.render setup
    Node.renderAll setup rest

/-- Renders the last caption among some nodes, if there is one. -/
def Node.renderLastCaption (setup : Setup) : List (Node α) → RenderM Unit
  | [] => return
  | .caption _ words :: rest =>
    if rest.any Node.isCaption then Node.renderLastCaption setup rest
    else captionLine setup (words.render setup)
  | _ :: rest => Node.renderLastCaption setup rest

/-- Renders nodes one after the other, captions left out. -/
def Node.renderParts (setup : Setup) : List (Node α) → RenderM Unit
  | [] => return
  | .caption .. :: rest => Node.renderParts setup rest
  | node :: rest => do
    node.render setup
    Node.renderParts setup rest

/-- Renders arms one after the other, all in the same way. -/
def Branch.renderAll (setup : Setup) : List (Branch α) → RenderM Unit
  | [] => return
  | .mk _ cond body :: rest => do
    openLine setup.options
    writeKeyword "if"
    cond.render setup
    writeKeyword "then"
    Node.renderBody setup body
    Branch.renderAll setup rest

/-- Renders a body, if there is one. -/
def Node.renderBody (setup : Setup) : Option (Node α) → RenderM Unit
  | none => return
  | some node => node.render setup

end

/-- What rendering a tree gives: the page, and the fault that it ends at, if it
does not reach the end of the tree. -/
structure Html.Rendering where
  page : Page
  fault : Option RenderFault

namespace Html.Rendering

/-- The markup, or why there is none. -/
def markup (r : Rendering) : Except RenderFault String :=
  match r.fault with
  | some fault => .error fault
  | none => .ok (Fragment.join r.page.fragments.toList)

/-- The bodies of the formulas that were turned into markup, in order. -/
def formulas (r : Rendering) : List String := r.page.fragments.toList.filterMap Fragment.formula?

end Html.Rendering

/-- The rendering of a tree on a page of its own. -/
def Node.rendering (setup : Setup) (node : Node α) : Html.Rendering :=
  match node.render setup {} with
  | .ok _ page => ⟨page, none⟩
  | .error fault page => ⟨page, some fault⟩

end AlgoBox
