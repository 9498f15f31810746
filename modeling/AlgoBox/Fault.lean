import AlgoBox.Symbol.Basic
import AlgoBox.Source.Report

/-!
# Faults of a source

Why a source cannot be read, with the offset of the fault.
-/

namespace AlgoBox

/-- Which texts a symbol may have. -/
inductive Wanted where
  | any
  | only (text : String)
  | oneOf (texts : List String)
deriving DecidableEq

namespace Wanted

/-- A text is one of those wanted. Only `any` admits a symbol without text. -/
def admits : Wanted → Option String → Bool
  | any, _ => true
  | only text, actual => actual = some text
  | oneOf texts, actual => actual.any texts.contains

/-- What a symbol without text is called in messages. -/
def textName (text : Option String) : String := text.getD "None"

/-- The wanted texts in a message: alternatives in order, each once. -/
def describe : Wanted → String
  | any => textName none
  | only text => text
  | oneOf texts => " | ".intercalate (texts.eraseDups.mergeSort fun a b => decide (a ≤ b))

end Wanted

/-- Why a source cannot be read: no symbol starts at a place, a symbol of
another kind or with another text is expected there, or the environment has a
name that is not known or cannot stand inside an algorithm. -/
inductive Fault.Cause where
  | unrecognizable
  | wrongKind (expected actual : Symbol.Kind)
  | wrongText (expected : Wanted) (actual : Option String)
  | unknownEnvironment (name : String)
  | misplacedEnvironment (name : String)
deriving DecidableEq

/-- A fault of a source and where it is. -/
structure Fault where
  cause : Fault.Cause
  offset : Nat
deriving DecidableEq

namespace Fault

/-- What a fault is told to be. -/
def Cause.message : Cause → String
  | unrecognizable => "Unrecognizable symbol"
  | wrongKind expected actual =>
    "Expected a symbol of type " ++ expected.name ++ " but received " ++ actual.name
  | wrongText expected actual =>
    "Expected `" ++ expected.describe ++ "` but received `" ++ Wanted.textName actual ++ "`"
  | unknownEnvironment name => "Unexpected environment `" ++ name ++ "`"
  | misplacedEnvironment name => "Unexpected environment `" ++ name ++ "` inside algorithm"

/-- Text that is no symbol is a lexical fault, all else is syntactic. -/
def Cause.category : Cause → Source.Category
  | unrecognizable => .lexical
  | _ => .syntactic

/-- The report of a fault in its source. -/
def report (f : Fault) (source : List Char) : Source.Report :=
  .make f.cause.category f.cause.message (some f.offset) (some source)

end Fault

end AlgoBox
