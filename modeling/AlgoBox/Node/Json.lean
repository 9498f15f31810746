import AlgoBox.Json.Basic
import AlgoBox.Node.Outline

/-!
# Outlines as JSON

An outline becomes an object with the members `children`, `type` and `value`,
and `location` if locations are wanted. Members stand in the order of their
names, so that equal outlines give equal texts.
-/

namespace AlgoBox.Outline

open Source

/-- The value of a node as JSON. -/
def Value.toJson : Outline.Value → Json
  | none => .null
  | word s => .string s
  | routine kind name => .object [("name", .string name), ("type", .string kind)]
  | choice elifs hasElse => .object [("hasElse", .bool hasElse), ("numElif", .int elifs)]

/-- A location as JSON. -/
def locationJson (l : Location) : Json :=
  .object [("col_offset", .int l.column), ("end_offset", .int l.stop), ("lineno", .int l.line),
    ("offset", .int l.start)]

/-- The member that holds the location, if locations are wanted. -/
def locationMember (withLocation : Bool) (l : Location) : List (String × Json) :=
  if withLocation then [("location", locationJson l)] else []

mutual

/-- An outline as JSON. -/
def toJson (withLocation : Bool) : Outline Location → Json
  | .mk loc type value children =>
    .object (("children", .array (toJsonAll withLocation children))
      :: locationMember withLocation loc
      ++ [("type", .string type), ("value", value.toJson)])

/-- Some outlines as JSON. -/
def toJsonAll (withLocation : Bool) : List (Outline Location) → List Json
  | [] => []
  | outline :: rest => outline.toJson withLocation :: toJsonAll withLocation rest

end

end AlgoBox.Outline
