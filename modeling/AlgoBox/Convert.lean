import AlgoBox.Html.Render
import AlgoBox.Log
import AlgoBox.Node.Grammar
import AlgoBox.Node.Outline

/-!
# From source to markup

The whole way from a source to its markup: the options are made or read, the
source is read, and the tree is rendered. The first of these that fails decides
the outcome. With the log at its lowest level the outline of the tree is written
before it is rendered.
-/

namespace AlgoBox

open Html Source

/-- Why a request gives no result: what it needs is missing, or the options, the
source or a tree is faulty. -/
inductive Failure where
  | noSource
  | noSurface
  | noTree (index : Nat)
  | options (fault : OptionFault)
  | source (text : String) (fault : Fault)
  | render (fault : RenderFault)
  | outline (fault : OutlineFault)

/-- What is told about a failure that has a report. The others are a value that cannot be quoted
and misuse: a missing argument, an unknown option, or a value of the wrong kind. -/
def Failure.report? : Failure → Option Report
  | options .unquotable | options .numberTooLarge | options (.unknownOption _) => none
  | options fault => some (.make .configuration fault.message none none)
  | source text fault => some (fault.report text.toList)
  | render (.unknownEscape _) | render (.notText _) => none
  | render fault => some (.make .internal fault.message none none)
  | noSource | noSurface | noTree _ | outline _ => none

/-- The message of a failure that has no report but tells what is missing. -/
def Failure.misuse? : Failure → Option String
  | noSource => some "source cannot be None"
  | noSurface => some "surface cannot be None"
  | outline fault => some fault.message
  | _ => none

/-- What turns formulas into markup: the default, or a function of the caller,
whose calls are counted. -/
abbrev Typesetter := Option (String → String)

/-- What a request gives: its result, or why there is none, the formulas that
the caller's function was given, in order, and the log. -/
structure Conversion (α : Type) where
  result : Except Failure α
  formulas : List String := []
  records : List Log.Record := []

namespace Conversion

variable {α β : Type}

/-- Goes on with a result; formulas and records accumulate. -/
def bind (c : Conversion α) (next : α → Conversion β) : Conversion β :=
  match c.result with
  | .error failure => ⟨.error failure, c.formulas, c.records⟩
  | .ok a =>
    let d := next a
    ⟨d.result, c.formulas ++ d.formulas, c.records ++ d.records⟩

/-- A result without formulas and records. -/
def ofExcept (result : Except Failure α) : Conversion α where
  result

/-- Some records and nothing else. -/
def log (records : List Log.Record) : Conversion Unit where
  result := .ok ()
  records

instance : Monad Conversion where
  pure a := ⟨.ok a, [], []⟩
  bind := bind

end Conversion

/-- Prepares the options of a request. -/
def Options.Request.ready (request : Options.Request) : Conversion Options.Choice :=
  .ofExcept (request.prepare.mapError .options)

/-- Reads the options of a choice. -/
def Options.Choice.read (level : Log.Level) (choice : Options.Choice) : Conversion Options := do
  if let .mapping entries := choice then
    .log ((unknownNames entries).flatMap fun name =>
      Log.debugRecord level "config" ("Ignoring unknown render option " ++ Text.quoted name))
  .ofExcept (choice.options.mapError .options)

/-- Checks the options of a request. -/
def Options.convert (level : Log.Level) (request : Options.Request) : Conversion Options := do
  let choice ← request.ready
  choice.read level

/-- Reads a source as a tree. -/
def readTree (level : Log.Level) (source : String) : Conversion (Node Location) := do
  let tree ← .ofExcept ((parse source).mapError (.source source))
  .log (Log.debugRecord level "parser"
    ("Parsed " ++ toString tree.children.length ++ " environment(s)"))
  return tree

/-- Renders a tree. Its outline is logged first, if such records are kept. -/
def renderTree {α : Type} (level : Log.Level) (options : Options) (typesetter : Typesetter)
    (tree : Node α) : Conversion String := do
  if level.keeps .debug then
    let outline ← .ofExcept (tree.outline.mapError .outline)
    .log (Log.debugRecord level "renderers.html" ("Rendering tree:\n" ++ outline.dump 0))
  let rendering := tree.rendering ⟨options, typesetter.getD delimited⟩
  { result := rendering.markup.mapError .render
    formulas := if typesetter.isSome then rendering.formulas else [] }

/-- Turns a source into markup. A missing source is found before a mapping of
options is read, and after options given field by field have been made. -/
def toHtml (level : Log.Level) (request : Options.Request) (typesetter : Typesetter)
    (source : Option String) : Conversion String := do
  let choice ← request.ready
  let source ← .ofExcept (source.elim (.error .noSource) .ok)
  let options ← choice.read level
  let tree ← readTree level source
  renderTree level options typesetter tree

end AlgoBox
