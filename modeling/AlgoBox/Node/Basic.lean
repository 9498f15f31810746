import AlgoBox.Source.Location
import AlgoBox.Text.LowerCase

/-!
# Trees

The tree of an algorithm box. A document holds environments; an algorithm holds
captions and algorithmic environments; an algorithmic environment holds
preconditions and blocks of statements. Text is a `Phrase`: a sequence of leaves
and nested phrases, one for each group of braces.

Nodes carry an annotation of any type, for instance their location. Trees are
equal up to annotations when they are equal after `Node.erase`.

Nothing forces a tree into the shape that the grammar gives it: any node may
stand among the children or as the body of any other. An empty body is `none`.
-/

namespace AlgoBox

/-- A piece of text that has no parts. A formula is without its dollars, an
escaped character with its backslash; a switch of the size or font is for the
rest of its phrase. -/
inductive Leaf where
  | ordinary (content : String)
  | math (body : String)
  | special (escape : String)
  | bool (keyword : String)
  | size (name : String)
  | font (name : String)
deriving DecidableEq

mutual

/-- A node of a tree with annotations of type `α`. An algorithm holds captions
and algorithmic environments, and an algorithmic environment preconditions and
blocks; a block is a run of statements, the unit of indentation. A conditional
has its arms in order, and maybe a last arm without condition, whose body may be
empty. A bare node is of no known type. -/
inductive Node (α : Type) where
  | bare (loc : α)
  | root (loc : α) (children : List (Node α))
  | algorithm (loc : α) (children : List (Node α))
  | algorithmic (loc : α) (children : List (Node α))
  | block (loc : α) (children : List (Node α))
  | text (phrase : Phrase α)
  | caption (loc : α) (words : Phrase α)
  | comment (loc : α) (words : Phrase α)
  | command (loc : α) (name : String) (words : Phrase α)
  | call (loc : α) (name : String) (args : Phrase α)
  | branch (arm : Branch α)
  | conditional (loc : α) (branches : List (Branch α)) (hasElse : Bool)
      (elseBody : Option (Node α))
  | loop (loc : α) (keyword : String) (cond : Phrase α) (body : Option (Node α))
  | function (loc : α) (kind name : String) (params : Phrase α) (body : Option (Node α))
  | leaf (loc : α) (item : Leaf)

/-- A sequence of text items. -/
inductive Phrase (α : Type) where
  | mk (loc : α) (items : List (Node α))

/-- One arm of a conditional: a condition and what is done under it. -/
inductive Branch (α : Type) where
  | mk (loc : α) (cond : Phrase α) (body : Option (Node α))

end

variable {α β : Type}

/-- The annotation of a phrase. -/
def Phrase.loc : Phrase α → α
  | .mk loc _ => loc

/-- The items of a phrase. -/
def Phrase.items : Phrase α → List (Node α)
  | .mk _ items => items

/-- The annotation of an arm. -/
def Branch.loc : Branch α → α
  | .mk loc _ _ => loc

/-- The annotation of a node. -/
def Node.loc : Node α → α
  | .bare loc | .root loc _ | .algorithm loc _ | .algorithmic loc _ | .block loc _
  | .caption loc _ | .comment loc _ | .command loc _ _ | .call loc _ _
  | .conditional loc _ _ _ | .loop loc _ _ _ | .function loc _ _ _ _ | .leaf loc _ => loc
  | .text phrase => phrase.loc
  | .branch arm => arm.loc

/-- The children of a node that holds a list of nodes; the other nodes, whose
parts have roles of their own, have none. -/
def Node.children : Node α → List (Node α)
  | .root _ children | .algorithm _ children | .algorithmic _ children | .block _ children =>
    children
  | .text phrase => phrase.items
  | .bare _ | .caption .. | .comment .. | .command .. | .call .. | .branch _
  | .conditional .. | .loop .. | .function .. | .leaf .. => []

/-- The type of a leaf. -/
def Leaf.typeName : Leaf → String
  | .ordinary _ => "ordinary"
  | .math _ => "math"
  | .special _ => "special"
  | .bool _ => "bool"
  | .size _ => "size"
  | .font _ => "font"

/-- The one string of a leaf. -/
def Leaf.value : Leaf → String
  | .ordinary s | .math s | .special s | .bool s | .size s | .font s => s

/-- The type of an arm. -/
def Branch.typeName : String := "branch"

/-- The type of a phrase. -/
def Phrase.typeName : String := "text"

/-- The type of a block. -/
def Node.blockTypeName : String := "block"

/-- The type of a node. -/
def Node.typeName : Node α → String
  | .bare _ => "node"
  | .root .. => "root"
  | .algorithm .. => "algorithm"
  | .algorithmic .. => "algorithmic"
  | .block .. => blockTypeName
  | .text _ => Phrase.typeName
  | .caption .. => "caption"
  | .comment .. => "comment"
  | .command .. => "command"
  | .call .. => "call"
  | .branch _ => Branch.typeName
  | .conditional .. => "if"
  | .loop .. => "loop"
  | .function .. => "function"
  | .leaf _ item => item.typeName

/-- The number of arms with a condition beyond the first. -/
def numElif (branches : List (Branch α)) : Int := branches.length - 1

/-- The node is a caption. -/
def Node.isCaption : Node α → Bool
  | .caption .. => true
  | _ => false

/-! ## Changing annotations -/

mutual

/-- Applies a function to every annotation of a tree. -/
def Node.map (f : α → β) : Node α → Node β
  | .bare loc => .bare (f loc)
  | .root loc children => .root (f loc) (Node.mapAll f children)
  | .algorithm loc children => .algorithm (f loc) (Node.mapAll f children)
  | .algorithmic loc children => .algorithmic (f loc) (Node.mapAll f children)
  | .block loc children => .block (f loc) (Node.mapAll f children)
  | .text phrase => .text (phrase.map f)
  | .caption loc words => .caption (f loc) (words.map f)
  | .comment loc words => .comment (f loc) (words.map f)
  | .command loc name words => .command (f loc) name (words.map f)
  | .call loc name args => .call (f loc) name (args.map f)
  | .branch arm => .branch (arm.map f)
  | .conditional loc branches hasElse elseBody =>
    .conditional (f loc) (Branch.mapAll f branches) hasElse (Node.mapBody f elseBody)
  | .loop loc keyword cond body => .loop (f loc) keyword (cond.map f) (Node.mapBody f body)
  | .function loc kind name params body =>
    .function (f loc) kind name (params.map f) (Node.mapBody f body)
  | .leaf loc item => .leaf (f loc) item

/-- Applies a function to every annotation of a phrase. -/
def Phrase.map (f : α → β) : Phrase α → Phrase β
  | .mk loc items => .mk (f loc) (Node.mapAll f items)

/-- Applies a function to every annotation of an arm. -/
def Branch.map (f : α → β) : Branch α → Branch β
  | .mk loc cond body => .mk (f loc) (cond.map f) (Node.mapBody f body)

/-- Applies a function to every annotation of some trees. -/
def Node.mapAll (f : α → β) : List (Node α) → List (Node β)
  | [] => []
  | node :: rest => node.map f :: Node.mapAll f rest

/-- Applies a function to every annotation of some arms. -/
def Branch.mapAll (f : α → β) : List (Branch α) → List (Branch β)
  | [] => []
  | arm :: rest => arm.map f :: Branch.mapAll f rest

/-- Applies a function to every annotation of a body. -/
def Node.mapBody (f : α → β) : Option (Node α) → Option (Node β)
  | none => none
  | some node => some (node.map f)

end

/-- The tree without its annotations. -/
def Node.erase (node : Node α) : Node Unit := node.map fun _ => ()

/-! ## Plain text -/

/-- The escape of a line break. -/
def lineBreak : String := "\\\\"

/-- The text of a leaf. Formulas are kept as they are, an escape gives its
character, keywords are in lower case, and switches give nothing. -/
def Leaf.plain : Leaf → String
  | .ordinary content => content
  | .math body => body
  | .special escape =>
    if escape = lineBreak then "\n" else String.ofList (escape.toList.drop 1)
  | .bool keyword => Text.lower keyword
  | .size _ | .font _ => ""

mutual

/-- The text of one item of a phrase; only leaves and phrases have one. -/
def Node.plain : Node α → String
  | .text phrase => phrase.plain
  | .leaf _ item => item.plain
  | _ => ""

/-- The text of a phrase. -/
def Phrase.plain : Phrase α → String
  | .mk _ items => Node.plainAll items

/-- The text of some items one after the other. -/
def Node.plainAll : List (Node α) → String
  | [] => ""
  | node :: rest => node.plain ++ Node.plainAll rest

end

/-! ## The phrases of a tree -/

mutual

/-- The outermost phrases of a tree in source order, each with the type of the
node it belongs to. -/
def Node.phrases : Node α → List (String × Phrase α)
  | .root _ children | .algorithm _ children | .algorithmic _ children | .block _ children =>
    Node.phrasesAll children
  | .text phrase => [(Phrase.typeName, phrase)]
  | node@(.caption _ words) | node@(.comment _ words) | node@(.command _ _ words)
  | node@(.call _ _ words) => [(node.typeName, words)]
  | .branch arm => arm.phrases
  | .conditional _ branches _ elseBody => Branch.phrasesAll branches ++ Node.phrasesBody elseBody
  | node@(.loop _ _ words body) | node@(.function _ _ _ words body) =>
    (node.typeName, words) :: Node.phrasesBody body
  | .bare _ | .leaf .. => []

/-- The outermost phrases of an arm. -/
def Branch.phrases : Branch α → List (String × Phrase α)
  | .mk _ cond body => (Branch.typeName, cond) :: Node.phrasesBody body

/-- The outermost phrases of some trees. -/
def Node.phrasesAll : List (Node α) → List (String × Phrase α)
  | [] => []
  | node :: rest => node.phrases ++ Node.phrasesAll rest

/-- The outermost phrases of some arms. -/
def Branch.phrasesAll : List (Branch α) → List (String × Phrase α)
  | [] => []
  | arm :: rest => arm.phrases ++ Branch.phrasesAll rest

/-- The outermost phrases of a body. -/
def Node.phrasesBody : Option (Node α) → List (String × Phrase α)
  | none => []
  | some node => node.phrases

end

/-! ## Captions -/

/-- The text of the last caption among some nodes. -/
def lastCaption? (nodes : List (Node α)) : Option (Phrase α) :=
  nodes.reverse.findSome? fun
    | .caption _ words => some words
    | _ => none

/-- The captions of the algorithms directly below a node, in order; the last
caption of an algorithm counts. -/
def Node.captions (node : Node α) : List (Option (Phrase α)) :=
  node.children.filterMap fun
    | .algorithm _ parts => some (lastCaption? parts)
    | _ => none

end AlgoBox
