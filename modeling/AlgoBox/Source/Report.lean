import AlgoBox.Source.Location

/-!
# Error reports

What is told about a failure: its category and message, and for a failure at a
place in a source the offset, the line and column, and an excerpt.

An excerpt is the window of the source around an offset, with a marker at the
offset. The marker is put in first and the window is cut from the marked text, so
it takes up part of the window behind the offset.
-/

namespace AlgoBox.Source

/-! ## Excerpts -/

/-- The part of a list from one position up to another. A negative end counts
from the end of the list. -/
def slice {α : Type} (l : List α) (start : Nat) (stop : Int) : List α :=
  let stop := (if stop < 0 then l.length + stop else stop).toNat
  (l.take stop).drop start

/-- The marker of messages. -/
def defaultMarker : List Char := ['↱']

/-- The radius of the window in messages. -/
def defaultRadius : Int := 15

/-- The window that reaches `radius` characters to either side of an offset. -/
def excerpt (source : List Char) (offset radius : Int) (marker : List Char) : List Char :=
  let o := clamp source offset
  let marked := source.take o ++ marker ++ source.drop o
  slice marked (o - radius).toNat (o + radius)

/-- Line feeds, carriage returns and tabs become spaces, so that an excerpt fits
on one line. -/
def flatten (s : List Char) : List Char :=
  s.map fun c => if c = '\r' ∨ c = '\n' ∨ c = '\t' then ' ' else c

/-! ## Reports -/

/-- The stage that a failure belongs to: the source holds text that is no
symbol, its symbols do not follow the grammar, an option is malformed, or a tree
has a shape that cannot be rendered. -/
inductive Category where
  | lexical
  | syntactic
  | configuration
  | internal
deriving DecidableEq

/-- The name of a category. -/
def Category.name : Category → String
  | lexical => "lexical"
  | syntactic => "syntactic"
  | configuration => "configuration"
  | internal => "internal"

/-- The place of a failure in a source: the line and column, both counted from
one, and the window of the source around it. -/
structure Place where
  line : Int
  column : Int
  excerpt : List Char

/-- What is told about a failure: the stage that failed, what went wrong, the
offset, and the place of the offset in its source. -/
structure Report where
  category : Category
  message : String
  offset : Option Int
  place : Option Place

namespace Report

/-- A failure with its place, if both the offset and the source are known. -/
def make (category : Category) (message : String) (offset : Option Int)
    (source : Option (List Char)) : Report where
  category
  message
  offset
  place := do
    let source ← source
    let offset ← offset
    let location := Location.ofOffset source offset none
    return ⟨location.line, location.column, excerpt source offset defaultRadius defaultMarker⟩

/-- The message with the offset and the flattened excerpt behind it. -/
def text (r : Report) : String :=
  match r.offset, r.place with
  | none, _ => r.message
  | some offset, none => r.message ++ " at position " ++ toString offset
  | some offset, some place =>
    r.message ++ " at position " ++ toString offset ++ ": `"
      ++ String.ofList (flatten place.excerpt) ++ "`"

end Report

end AlgoBox.Source
