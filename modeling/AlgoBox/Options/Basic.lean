import AlgoBox.Options.Em

/-!
# Render options

What can be chosen about the output: the indent of nested blocks, the symbol in
front of comments, the text after a line number, and whether lines are numbered.
Options are given either field by field (`Options.ofFields`) or as a mapping of
user-facing names (`Options.ofMapping`), where a length is a text with a unit,
empty entries are skipped and unknown names are ignored.
-/

namespace AlgoBox

open Numeric

/-- An indent: a finite, non-negative number of em, kept the way it was given. -/
inductive Indent where
  | whole (ems : Nat) (isFinite : (Binary64.ofInt ems).isFinite = true)
  | measured (ems : Binary64) (isFinite : ems.isFinite = true) (notNegative : ems.isNegative = false)

namespace Indent

/-- The indent as a double. -/
def toBinary64 : Indent → Binary64
  | whole ems _ => Binary64.ofInt ems
  | measured ems .. => ems

/-- The indent as a value. -/
def toValue : Indent → Value
  | whole ems _ => .int ems
  | measured ems .. => .double ems

/-- The indent of a number of em that has been checked to be a length. -/
def ofBinary64? (ems : Binary64) : Option Indent :=
  if h : ems.isFinite = true ∧ ems.isNegative = false then some (.measured ems h.1 h.2) else none

/-- The indent of a value: a number that is finite and not negative. -/
def ofValue (value : Value) : Except OptionFault Indent :=
  match value with
  | .int n =>
    if (Binary64.ofInt n).isFinite then
      if h : 0 ≤ n ∧ (Binary64.ofInt n.toNat).isFinite = true then .ok (.whole n.toNat h.2)
      else .error (.of .indentNotALength value)
    else .error .numberTooLarge
  | .double x => (ofBinary64? x).elim (.error (.of .indentNotALength value)) .ok
  | _ => .error (.of .indentNotANumber value)

end Indent

/-- The double nearest to 1.4. -/
def defaultIndent : Binary64 := Binary64.ofDecimal false 14 (-1)

/-- Render options: the left margin of every nested block, what stands in front
of a comment, what follows a line number, and what tells whether lines are
numbered. All but the indent are kept as they were given; what they mean is
decided where they are used. -/
structure Options where
  indent : Indent
  commentSymbol : Value
  lineNumberPunc : Value
  lineNumber : Value

namespace Options

/-- The options that can be set, in the order in which they are listed. -/
inductive Field where
  | indent
  | commentSymbol
  | lineNumberPunc
  | lineNumber
deriving DecidableEq

/-- The name of an option. -/
def Field.name : Field → String
  | indent => "indent_size"
  | commentSymbol => "comment_symbol"
  | lineNumberPunc => "line_number_punc"
  | lineNumber => "line_number"

/-- The other name that users may write for an option. -/
def Field.userName : Field → String
  | indent => "indentSize"
  | commentSymbol => "commentSymbol"
  | lineNumberPunc => "lineNumberPunc"
  | lineNumber => "lineNumber"

/-- Every option. -/
def Field.all : List Field := [indent, commentSymbol, lineNumberPunc, lineNumber]

/-- The option of a name. -/
def Field.ofName? (name : String) : Option Field := all.find? (·.name = name)

/-- The option that either of its names stands for. -/
def Field.ofUserName? (name : String) : Option Field :=
  all.find? fun field => field.name = name || field.userName = name

/-- The value of an option that is not set. -/
def Field.default : Field → Value
  | indent => .double defaultIndent
  | commentSymbol => .text "//"
  | lineNumberPunc => .text ":"
  | lineNumber => .bool false

/-- The value that the last of some entries gives to an option. -/
def lastValue? (field : Field) (entries : List (Field × Value)) : Option Value :=
  (entries.reverse.find? (·.1 = field)).map (·.2)

/-- The value that some entries give to an option, or its default. -/
def valueOf (entries : List (Field × Value)) (field : Field) : Value :=
  (lastValue? field entries).getD field.default

/-- The options that some entries decide, the last entry of an option winning. -/
def ofEntries (entries : List (Field × Value)) : Except OptionFault Options := do
  let indent ← Indent.ofValue (valueOf entries .indent)
  return {
    indent
    commentSymbol := valueOf entries .commentSymbol
    lineNumberPunc := valueOf entries .lineNumberPunc
    lineNumber := valueOf entries .lineNumber }

/-- Options given field by field. Every name has to be that of an option. -/
def ofFields (entries : List (String × Value)) : Except OptionFault Options := do
  let named ← entries.mapM fun (name, value) =>
    match Field.ofName? name with
    | some field => .ok (field, value)
    | none => .error (.unknownOption name)
  ofEntries named

/-- An entry that leaves its option as it is: no value, or the empty text. -/
def isVoid : Value → Bool
  | .null => true
  | .text s => s = ""
  | _ => false

/-- The entries of a mapping that set an option. -/
def settings (entries : List (String × Value)) : List (Field × Value) :=
  entries.filterMap fun (name, value) =>
    if isVoid value then none else (Field.ofUserName? name).map (·, value)

/-- The names in a mapping that are not those of an option. -/
def unknownNames (entries : List (String × Value)) : List String :=
  (entries.map (·.1)).filter fun name => (Field.ofUserName? name).isNone

/-- Options given as a mapping of user-facing names. A length that is overridden
by a later entry is never read. -/
def ofMapping (entries : List (String × Value)) : Except OptionFault Options := do
  let set := settings entries
  let length ← (lastValue? .indent set).mapM Em.parse
  let truth := (lastValue? .lineNumber set).map Value.isTrue
  ofEntries (set ++ (length.map fun ems => (Field.indent, Value.double ems)).toList
    ++ (truth.map fun b => (Field.lineNumber, Value.bool b)).toList)

/-- The options when nothing is chosen. -/
def default : Options where
  indent := .measured defaultIndent (by decide +kernel) (by decide +kernel)
  commentSymbol := Field.commentSymbol.default
  lineNumberPunc := Field.lineNumberPunc.default
  lineNumber := Field.lineNumber.default

/-- Gives a name of a mapping a value: in the place of its earlier value, if there
is one, and at the end otherwise. -/
def setEntry (entries : List (String × Value)) (name : String) (value : Value) :
    List (String × Value) :=
  match entries with
  | [] => [(name, value)]
  | entry :: rest =>
    if entry.1 = name then (name, value) :: rest else entry :: setEntry rest name value

/-- The mapping that entries make one after the other. -/
def mappingOf (entries : List (String × Value)) : List (String × Value) :=
  entries.foldl (fun mapping entry => setEntry mapping entry.1 entry.2) []

/-- How options are given: not at all, as a mapping of user-facing names, or
field by field. -/
inductive Request where
  | default
  | mapping (entries : List (String × Value))
  | fields (entries : List (String × Value))

/-- A request as a renderer takes it: options that have been made, or a mapping
that is yet to be read. -/
inductive Choice where
  | made (options : Options)
  | mapping (entries : List (String × Value))

/-- Options given field by field are made before they are handed on, so their
faults come before every other; a mapping is handed on unread. -/
def Request.prepare : Request → Except OptionFault Choice
  | .default => .ok (.made Options.default)
  | .mapping entries => .ok (.mapping entries)
  | .fields entries => (ofFields entries).map .made

/-- The options that a choice stands for. -/
def Choice.options : Choice → Except OptionFault Options
  | .made options => .ok options
  | .mapping entries => ofMapping entries

/-- The options that a request stands for. -/
def resolve (request : Request) : Except OptionFault Options := do
  let choice ← request.prepare
  choice.options

/-- The values of all options by their names. -/
def toList (o : Options) : List (String × Value) :=
  [(Field.indent.name, o.indent.toValue), (Field.commentSymbol.name, o.commentSymbol),
   (Field.lineNumberPunc.name, o.lineNumberPunc), (Field.lineNumber.name, o.lineNumber)]

end Options

end AlgoBox
