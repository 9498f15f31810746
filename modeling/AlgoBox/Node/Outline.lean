import AlgoBox.Node.Basic
import AlgoBox.Value

/-!
# Outlines

The uniform view of a tree: every node has a type, a value and children. A
conditional lists its conditions and bodies in turn, then the body without a
condition; an empty body appears as a block without children. An outline is
written as indented text by `Outline.dump`.

A node of no known type and an arm on its own have no outline.
-/

namespace AlgoBox

/-- The value of a node in an outline: none, the one string of the node, the
kind and name of a function, or the number of arms beyond the first with whether
there is a last one without condition. -/
inductive Outline.Value where
  | none
  | word (s : String)
  | routine (kind name : String)
  | choice (elifs : Int) (hasElse : Bool)
deriving DecidableEq

/-- The uniform view of a tree: a node by its annotation, type, value and
children. -/
inductive Outline (α : Type) where
  | mk (loc : α) (type : String) (value : Outline.Value) (children : List (Outline α))

/-- A node that has no outline, by its type. -/
structure OutlineFault where
  typeName : String

/-- What is told about a node that has no outline. -/
def OutlineFault.message (f : OutlineFault) : String :=
  "Cannot serialize node of type " ++ f.typeName.capitalize

variable {α : Type}

/-- The outline of an empty body. -/
def Outline.emptyBlock (loc : α) : Outline α := .mk loc Node.blockTypeName .none []

mutual

/-- The outline of a tree. -/
def Node.outline : Node α → Except OutlineFault (Outline α)
  | node@(.root loc children) | node@(.algorithm loc children) | node@(.algorithmic loc children)
  | node@(.block loc children) => return .mk loc node.typeName .none (← Node.outlineAll children)
  | .text words => words.outline
  | node@(.caption loc words) | node@(.comment loc words) =>
    return .mk loc node.typeName .none [← words.outline]
  | node@(.command loc name words) | node@(.call loc name words) =>
    return .mk loc node.typeName (.word name) [← words.outline]
  | node@(.loop loc keyword cond body) =>
    return .mk loc node.typeName (.word keyword) [← cond.outline, ← Node.outlineBody loc body]
  | node@(.function loc kind name params body) =>
    return .mk loc node.typeName (.routine kind name)
      [← params.outline, ← Node.outlineBody loc body]
  | node@(.conditional loc branches hasElse elseBody) => do
    let arms ← Branch.outlineAll loc branches
    let last ← if hasElse then (fun body => [body]) <$> Node.outlineBody loc elseBody else pure []
    return .mk loc node.typeName (.choice (numElif branches) hasElse) (arms ++ last)
  | .leaf loc item => return .mk loc item.typeName (.word item.value) []
  | node@(.bare _) | node@(.branch _) => throw ⟨node.typeName⟩

/-- The outline of a phrase. -/
def Phrase.outline : Phrase α → Except OutlineFault (Outline α)
  | .mk loc items => return .mk loc Phrase.typeName .none (← Node.outlineAll items)

/-- The outlines of the condition and the body of each arm, in turn. -/
def Branch.outlineAll (loc : α) : List (Branch α) → Except OutlineFault (List (Outline α))
  | [] => return []
  | .mk _ cond body :: rest =>
    return (← cond.outline) :: (← Node.outlineBody loc body) :: (← Branch.outlineAll loc rest)

/-- The outlines of some trees. -/
def Node.outlineAll : List (Node α) → Except OutlineFault (List (Outline α))
  | [] => return []
  | node :: rest => return (← node.outline) :: (← Node.outlineAll rest)

/-- The outline of a body; an empty one takes the annotation of its owner. -/
def Node.outlineBody (loc : α) : Option (Node α) → Except OutlineFault (Outline α)
  | none => return .emptyBlock loc
  | some node => node.outline

end

namespace Outline

/-- A value in the text of an outline; an empty value is left out. -/
def Value.text? : Outline.Value → Option String
  | none => Option.none
  | word s => if s = "" then Option.none else some s
  | routine kind name => some ("type: " ++ kind ++ ", name: " ++ name)
  | choice elifs hasElse =>
    some ("numElif: " ++ toString elifs ++ ", hasElse: " ++ AlgoBox.Value.boolText hasElse)

/-- The line of one node: two spaces for each level, its type and its value. A
level below zero has no spaces. -/
def line (level : Int) (type : String) (value : Outline.Value) : String :=
  String.ofList (List.replicate (2 * level).toNat ' ') ++ "<" ++ type ++ ">"
    ++ (match value.text? with
      | some s => " (" ++ s ++ ")"
      | Option.none => "")

mutual

/-- The lines of an outline whose top is at a level. -/
def lines (level : Int) : Outline α → List String
  | .mk _ type value children => line level type value :: linesAll (level + 1) children

/-- The lines of some outlines at a level. -/
def linesAll (level : Int) : List (Outline α) → List String
  | [] => []
  | outline :: rest => outline.lines level ++ linesAll level rest

end

/-- An outline as indented text, one line for each node. -/
def dump (level : Int) (outline : Outline α) : String :=
  "\n".intercalate (outline.lines level)

end Outline

end AlgoBox
