import AlgoBox.Html.Render
import AlgoBox.Proofs.Boxes

/-!
# The layout of a tree

What a tree looks like on the page, without the page. A statement asks for lines
and containers (`Node.marks`), and writing these marks one after the other gives
boxes (`Sheet.writeAll`): a mark either starts a line, or joins the open one, or
stands for a container with marks of its own. Lines are numbered as they are
started.

A phrase is one piece of a line. A switch in it is a stretch that holds the rest
of the phrase (`Node.inlines`).
-/

namespace AlgoBox

open Html

variable {α : Type}

/-! ## Phrases -/

/-- The pieces of a leaf. Switches have none of their own. -/
def Leaf.inlines (setup : Setup) : Leaf → List Inline
  | .ordinary content => [.text (Text.escape content)]
  | .math body => [.math body (setup.typeset body)]
  | .special escape => [.text ((escapeMarkup? escape).getD "")]
  | .bool keyword => [.keyword (Text.lower keyword)]
  | .size _ | .font _ => []

mutual

/-- A phrase as a piece of a line. -/
def Phrase.inline (setup : Setup) : Phrase α → Inline
  | .mk _ items => .stretch .phrase (Node.inlines setup items)

/-- The pieces of some items. Only leaves and phrases are items. -/
def Node.inlines (setup : Setup) : List (Node α) → List Inline
  | [] => []
  | .leaf _ item :: rest =>
    match item.switch? with
    | some span => [.stretch span (Node.inlines setup rest)]
    | none => item.inlines setup ++ Node.inlines setup rest
  | .text words :: rest => words.inline setup :: Node.inlines setup rest
  | _ :: rest => Node.inlines setup rest

end

/-! ## Marks -/

namespace Html

/-- What is to be put on the page: a line, which more content may join, content of the open
line or of a new one if none is open, a line that nothing joins, or a container. -/
inductive Mark where
  | start (content : List Inline)
  | join (content : List Inline)
  | alone (content : List Inline)
  | inside (div : Div) (marks : List Mark)

/-- Markup of an option value; what is no text gives nothing. -/
def escapedValue (value : Value) : String :=
  if value.isTrue then
    match value with
    | .text s => Text.escape s
    | _ => ""
  else ""

/-- The number of a line inside a number of blocks. -/
def lineNumberAt (options : Options) (depth number : Nat) : LineNumber where
  offset := Em.format (lineNumberOffset options.indent.toBinary64 depth)
  number := number
  punc := escapedValue options.lineNumberPunc

/-- A line inside a number of blocks, with as many code lines above it. Outside all
blocks it is no code line. -/
def rowAt (options : Options) (depth count : Nat) (content : List Inline) : Row :=
  if 0 < depth then
    ⟨.code,
      if options.lineNumber.isTrue then some (lineNumberAt options depth (count + 1)) else none,
      content⟩
  else ⟨.hanging (Em.format options.indent.toBinary64), none, content⟩

/-- The number of blocks that a container adds around what it holds. -/
def Div.blocks : Div → Nat
  | .block _ => 1
  | _ => 0

/-- The number of code lines above the first one in a container. -/
def Div.recount (count : Nat) : Div → Nat
  | .algorithmic true => 0
  | _ => count

/-! ## Sheets -/

/-- The inside of a container while it is written: the boxes that are finished, the open
line below them, and the number of code lines so far. -/
structure Sheet where
  above : List Box := []
  row : Option Row := none
  count : Nat := 0

namespace Sheet

/-- The boxes, the open line closed. -/
def boxes (s : Sheet) : List Box := s.above ++ s.row.toList.map .line

/-- The fragments up to where the open line goes on. -/
def fragments (s : Sheet) : List Fragment := Box.fragmentsAll s.above ++ s.row.elim [] Row.opened

/-- The sheet with the open line closed. -/
def close (s : Sheet) : Sheet := { above := s.boxes, count := s.count }

/-- The sheet with another line. -/
def start (options : Options) (depth : Nat) (content : List Inline) (s : Sheet) : Sheet where
  above := s.boxes
  row := some (rowAt options depth s.count content)
  count := if 0 < depth then s.count + 1 else s.count

/-- The sheet with more content in the open line. -/
def add (content : List Inline) (s : Sheet) : Sheet := { s with row := s.row.map (Row.add content) }

/-- The sheet with content in the open line, or in a new one if none is open. -/
def join (options : Options) (depth : Nat) (content : List Inline) (s : Sheet) : Sheet :=
  if s.row.isSome then s.add content else s.start options depth content

/-- The sheet with a container below. -/
def contain (s : Sheet) (div : Div) (inner : Sheet) : Sheet where
  above := s.boxes ++ [.container div inner.boxes]
  count := inner.count

mutual

/-- Puts a mark on a sheet. -/
def write (options : Options) (depth : Nat) (s : Sheet) : Mark → Sheet
  | .start content => s.start options depth content
  | .join content => s.join options depth content
  | .alone content => (s.start options depth content).close
  | .inside div marks =>
    s.contain div (writeAll options (depth + div.blocks) { count := div.recount s.count } marks)

/-- Puts some marks on a sheet, one after the other. -/
def writeAll (options : Options) (depth : Nat) (s : Sheet) : List Mark → Sheet
  | [] => s
  | mark :: rest => writeAll options depth (s.write options depth mark) rest

end

theorem writeAll_append (options : Options) (depth : Nat) (s : Sheet) (l m : List Mark) :
    s.writeAll options depth (l ++ m) =
      (s.writeAll options depth l).writeAll options depth m := by
  induction l generalizing s with
  | nil => rfl
  | cons mark rest ih => exact ih (s.write options depth mark)

theorem fragmentsAll_boxes (s : Sheet) :
    Box.fragmentsAll s.boxes = s.fragments ++ if s.row.isSome then Row.ending else [] := by
  unfold boxes fragments
  rw [Box.fragmentsAll_append, List.append_assoc]
  cases s.row with
  | none => rfl
  | some row =>
      show _ = _ ++ (row.opened ++ Row.ending)
      exact congrArg _ (Box.fragmentsAll_singleton (.line row))

theorem fragments_eq_of_row {s : Sheet} (h : s.row = none) :
    s.fragments = Box.fragmentsAll s.boxes := by
  rw [fragmentsAll_boxes, h]
  exact (List.append_nil _).symm

@[simp] theorem boxes_close (s : Sheet) : s.close.boxes = s.boxes := List.append_nil _

@[simp] theorem boxes_contain (s : Sheet) (div : Div) (inner : Sheet) :
    (s.contain div inner).boxes = s.boxes ++ [.container div inner.boxes] :=
  List.append_nil _

@[simp] theorem start_close (options : Options) (depth : Nat) (content : List Inline) (s : Sheet) :
    s.close.start options depth content = s.start options depth content := by
  unfold start
  rw [boxes_close]
  rfl

@[simp] theorem contain_close (s : Sheet) (div : Div) (inner : Sheet) :
    s.contain div inner.close = s.contain div inner := by
  unfold contain
  rw [boxes_close]
  rfl

theorem fragments_start (options : Options) (depth : Nat) (content : List Inline)
    (s : Sheet) :
    (s.start options depth content).fragments =
      Box.fragmentsAll s.boxes ++ (rowAt options depth s.count content).opened :=
  rfl

theorem fragments_add {content : List Inline} {s : Sheet} (h : s.row.isSome) :
    (s.add content).fragments = s.fragments ++ Inline.fragmentsAll content := by
  obtain ⟨row, hrow⟩ := Option.isSome_iff_exists.1 h
  unfold fragments add
  simp only [hrow, Option.map_some, Option.elim_some, Row.opened_add, List.append_assoc]

@[simp] theorem add_add (content content' : List Inline) (s : Sheet) :
    (s.add content).add content' = s.add (content ++ content') := by
  unfold add
  cases s.row with
  | none => rfl
  | some row => simp only [Option.map_some, Row.add, List.append_assoc]

theorem add_nil (s : Sheet) : s.add [] = s := by
  obtain ⟨above, row, count⟩ := s
  cases row with
  | none => rfl
  | some row => simp only [add, Row.add, Option.map_some, List.append_nil]

theorem start_eq_add (options : Options) (depth : Nat) (content : List Inline) (s : Sheet) :
    s.start options depth content = (s.start options depth []).add content := by
  have hrow : rowAt options depth s.count content =
      (rowAt options depth s.count []).add content := by
    unfold rowAt
    split <;> rfl
  unfold start add
  rw [hrow]
  rfl

end Sheet

end Html

/-! ## The marks of a tree -/

/-- The keyword in front of the text of a command, if there is one. -/
def Html.labelInlines (name : String) : List Inline :=
  match commandLabel? name with
  | some label => if label ≠ "" then [.keyword label] else []
  | none => []

/-- The name of a function with what it is applied to. -/
def Html.applied (setup : Setup) (name : String) (args : Phrase α) : List Inline :=
  [.functionName name, .text "(", args.inline setup, .text ")"]

mutual

/-- The marks of a node inside an environment, or of an algorithmic environment.
Captions are left out. -/
def Node.marks (setup : Setup) : Node α → List Mark
  | .algorithmic _ children =>
    [.inside (.algorithmic setup.options.lineNumber.isTrue) (Node.marksAll setup children)]
  | .block _ children =>
    [.inside (.block (Em.format setup.options.indent.toBinary64)) (Node.marksAll setup children)]
  | .command _ name words => [.start (labelInlines name ++ [words.inline setup])]
  | .call _ name args => [.join (applied setup name args)]
  | .comment _ words =>
    [.join [.stretch .comment
      [.text (escapedValue setup.options.commentSymbol ++ " "), words.inline setup]]]
  | .conditional _ branches hasElse elseBody =>
    Branch.marksAll setup branches ++
      ((if hasElse then .start [.keyword "else"] :: Node.marksBody setup elseBody else []) ++
        [.start [.keyword "end if"]])
  | .loop _ keyword cond body =>
    .start [.keyword (Text.lower keyword), cond.inline setup, .keyword "do"] ::
      (Node.marksBody setup body ++ [.start [.keyword ("end " ++ Text.lower keyword)]])
  | .function _ kind name params body =>
    .start (.keyword (Text.lower kind) :: applied setup name params) ::
      (Node.marksBody setup body ++ [.start [.keyword ("end " ++ Text.lower kind)]])
  | .bare _ | .root .. | .algorithm .. | .text _ | .caption .. | .branch _ | .leaf .. => []

/-- The marks of some nodes. -/
def Node.marksAll (setup : Setup) : List (Node α) → List Mark
  | [] => []
  | node :: rest => node.marks setup ++ Node.marksAll setup rest

/-- The marks of some arms. -/
def Branch.marksAll (setup : Setup) : List (Branch α) → List Mark
  | [] => []
  | .mk _ cond body :: rest =>
    .start [.keyword "if", cond.inline setup, .keyword "then"] ::
      (Node.marksBody setup body ++ Branch.marksAll setup rest)

/-- The marks of a body. -/
def Node.marksBody (setup : Setup) : Option (Node α) → List Mark
  | none => []
  | some node => node.marks setup

end

/-- The line of the last caption among some nodes, if there is one. -/
def Html.captionMarks (setup : Setup) (number : Nat) (nodes : List (Node α)) : List Mark :=
  (lastCaption? nodes).toList.map fun words =>
    .alone [.keyword ("Algorithm " ++ toString number), words.inline setup]

/-- The number of captioned algorithms that a node is. -/
def Node.captioned : Node α → Nat
  | .algorithm _ parts => if parts.any Node.isCaption then 1 else 0
  | _ => 0

/-- The marks of an environment behind a number of captioned algorithms. -/
def Node.environmentMarks (setup : Setup) (captions : Nat) : Node α → List Mark
  | .algorithm _ parts =>
    [.inside (.algorithm (parts.any Node.isCaption))
      (captionMarks setup (captions + 1) parts ++ Node.marksAll setup parts)]
  | node => node.marks setup

/-- The marks of some environments behind a number of captioned algorithms. -/
def Node.environmentsMarks (setup : Setup) (captions : Nat) : List (Node α) → List Mark
  | [] => []
  | node :: rest =>
    node.environmentMarks setup captions ++
      Node.environmentsMarks setup (captions + node.captioned) rest

/-- What a document looks like: the boxes in its container. -/
def Node.layout (setup : Setup) (document : Node α) : List Box :=
  (Sheet.writeAll setup.options 0 {} (Node.environmentsMarks setup 0 document.children)).boxes

end AlgoBox
