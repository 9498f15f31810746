/-!
# Log records

What is told on the way, besides the result. Every record names the part of the
program that wrote it. All names lie under one common name.
-/

namespace AlgoBox.Log

/-- How much is logged. -/
inductive Level where
  | debug
  | info
  | warning
deriving DecidableEq

/-- The name of a level in records. -/
def Level.name : Level → String
  | debug => "DEBUG"
  | info => "INFO"
  | warning => "WARNING"

/-- The importance of a level. -/
def Level.rank : Level → Nat
  | debug => 10
  | info => 20
  | warning => 30

/-- A record of a level is kept when no more important level is asked for. -/
def Level.keeps (threshold level : Level) : Bool := threshold.rank ≤ level.rank

/-- A record: what wrote it, its level, and what it says. -/
structure Record where
  logger : String
  level : Level
  message : String

/-- The common name of everything that logs. -/
def rootName : String := "pseudotex"

/-- A name put under the common name, unless it is there already. -/
def qualified (name : String) : String :=
  if name = rootName ∨ (rootName ++ ".").toList.isPrefixOf name.toList then name
  else rootName ++ "." ++ name

/-- A record of the lowest level by a part of the program, if it is kept. -/
def debugRecord (threshold : Level) (part message : String) : List Record :=
  if threshold.keeps .debug then [⟨qualified part, .debug, message⟩] else []

end AlgoBox.Log
