import AlgoBox.Node.Basic
import AlgoBox.Symbol.Reader

/-!
# Reading trees

The grammar of algorithm boxes, one definition for each production:

    document    ::= ( algorithm | algorithmic )*
    algorithm   ::= \begin{algorithm} ( caption | algorithmic )* \end{algorithm}
    caption     ::= \caption{ phrase }
    algorithmic ::= \begin{algorithmic} ( precondition | block )* \end{algorithmic}
    block       ::= ( conditional | loop | function | statement | comment | call )*
    conditional ::= \IF{ phrase } block ( \ELIF{ phrase } block )* ( \ELSE block )? \ENDIF
    loop        ::= \FOR{ phrase } block \ENDFOR, and the same for WHILE
    function    ::= \FUNCTION{name}{ phrase } block \ENDFUNCTION, and the same for PROCEDURE
    statement   ::= ( \STATE | \PRINT | \RETURN ) phrase
    comment     ::= \COMMENT{ phrase }
    call        ::= \CALL{name}{ phrase }
    phrase      ::= ( leaf | { phrase } )*

One symbol of lookahead decides which production applies. A production whose
name ends in a question mark gives `none`, and consumes nothing, when the current
symbol does not start it.

A production that repeats or nests takes a bound on the symbols that remain.
Every round and every level consumes a symbol, so the bound reaches zero only at
the end of the source, where each production stops anyway.
-/

namespace AlgoBox.Grammar

open Reader

/-- A stretch of a source, from the offset of its first character to the one
just past the last. -/
structure Span where
  start : Nat
  stop : Nat
deriving DecidableEq

/-- The commands of preconditions. -/
def preconditionWords : List String := ["ENSURE", "REQUIRE"]

/-- The commands of statements. -/
def statementWords : List String := ["PRINT", "RETURN", "STATE"]

/-- The keywords of functions. -/
def functionWords : List String := ["FUNCTION", "PROCEDURE"]

/-- The keywords of loops. -/
def loopWords : List String := ["FOR", "WHILE"]

/-- The logical keywords. -/
def boolWords : List String := ["AND", "FALSE", "NOT", "OR", "TRUE"]

/-- The names of sizes. -/
def sizeWords : List String :=
  ["tiny", "scriptsize", "footnotesize", "small", "normalsize", "large", "Large", "LARGE", "huge",
   "Huge"]

/-- The names of fonts. -/
def fontWords : List String := ["bf", "it", "rm", "sl"]

/-- The name of an environment of captions and algorithmic environments. -/
def algorithmName : String := "algorithm"

/-- The name of an environment of statements. -/
def algorithmicName : String := "algorithmic"

/-- The offset of the current symbol. -/
def here : ReadM Nat := return (← get).current.start

/-- The span from an offset to the end of the last symbol consumed. -/
def spanFrom (start : Nat) : ReadM Span := return ⟨start, max start (← get).lastEnd⟩

/-- The command word `text`, or nothing consumed. -/
def word? (text : String) : ReadM Bool := return (← accept .word (.only text)).isSome

/-- One of some command words, or nothing consumed. -/
def wordOf? (texts : List String) : ReadM (Option String) := accept .word (.oneOf texts)

/-- The command word `text`, which has to be here. -/
def closingWord (text : String) : ReadM Unit := discard (expect .word (.only text))

/-- An opening brace, which has to be here. -/
def openBrace : ReadM Unit := discard (expect .openBrace .any)

/-- A closing brace, which has to be here. -/
def closeBrace : ReadM Unit := discard (expect .closeBrace .any)

/-- A name between braces. -/
def bracedName : ReadM String := do
  openBrace
  let name ← expect .ordinary .any
  closeBrace
  return name

/-! ## Phrases -/

/-- The symbols that are leaves, with what they become. -/
def leafForms : List (Symbol.Kind × Wanted × (String → Leaf)) :=
  [(.ordinary, .any, .ordinary), (.math, .any, .math), (.special, .any, .special),
   (.word, .oneOf boolWords, .bool), (.word, .oneOf sizeWords, .size),
   (.word, .oneOf fontWords, .font)]

/-- A leaf of the first form that fits. -/
def leafOf? : List (Symbol.Kind × Wanted × (String → Leaf)) → ReadM (Option Leaf)
  | [] => return none
  | (kind, wanted, form) :: rest => do
    match ← accept kind wanted with
    | some text => return some (form text)
    | none => leafOf? rest

/-- A leaf. -/
def leaf? : ReadM (Option (Node Span)) := do
  let start ← here
  match ← leafOf? leafForms with
  | some leaf => return some (.leaf (← spanFrom start) leaf)
  | none => return none

/-- Leaves and groups of braces, as many as there are. -/
def items : Nat → ReadM (List (Node Span))
  | 0 => return []
  | bound + 1 => do
    match ← leaf? with
    | some leaf => return leaf :: (← items bound)
    | none =>
      match ← accept .openBrace .any with
      | none => return []
      | some _ =>
        let start ← here
        let inner ← items bound
        let span ← spanFrom start
        closeBrace
        return .text (.mk span inner) :: (← items bound)

/-- A phrase; it may be empty. -/
def phrase (bound : Nat) : ReadM (Phrase Span) := do
  let start ← here
  let inner ← items bound
  return .mk (← spanFrom start) inner

/-- A phrase between braces. -/
def bracedPhrase (bound : Nat) : ReadM (Phrase Span) := do
  openBrace
  let words ← phrase bound
  closeBrace
  return words

/-! ## Statements -/

/-- One of some commands and the phrase behind it. -/
def command? (words : List String) (bound : Nat) : ReadM (Option (Node Span)) := do
  let start ← here
  match ← wordOf? words with
  | none => return none
  | some name =>
    let text ← phrase bound
    return some (.command (← spanFrom start) name text)

/-- A comment. -/
def comment? (bound : Nat) : ReadM (Option (Node Span)) := do
  let start ← here
  if ← word? "COMMENT" then
    let text ← bracedPhrase bound
    return some (.comment (← spanFrom start) text)
  else return none

/-- A call. -/
def call? (bound : Nat) : ReadM (Option (Node Span)) := do
  let start ← here
  if ← word? "CALL" then
    let name ← bracedName
    let args ← bracedPhrase bound
    return some (.call (← spanFrom start) name args)
  else return none

/-- An arm of a conditional behind its keyword at `start`. -/
def arm (bound : Nat) (body : ReadM (Option (Node Span))) (start : Nat) :
    ReadM (Branch Span) := do
  let cond ← bracedPhrase bound
  let inner ← body
  return .mk (← spanFrom start) cond inner

/-- The arms behind the first one, as many as there are. -/
def laterArms (read : Nat → ReadM (Branch Span)) : Nat → ReadM (List (Branch Span))
  | 0 => return []
  | bound + 1 => do
    let start ← here
    if ← word? "ELIF" then
      return (← read start) :: (← laterArms read bound)
    else return []

/-- A conditional. -/
def conditional? (bound : Nat) (body : ReadM (Option (Node Span))) :
    ReadM (Option (Node Span)) := do
  let start ← here
  if ← word? "IF" then
    let first ← arm bound body start
    let later ← laterArms (arm bound body) bound
    let hasElse ← word? "ELSE"
    let elseBody ← if hasElse then body else pure none
    closingWord "ENDIF"
    return some (.conditional (← spanFrom start) (first :: later) hasElse elseBody)
  else return none

/-- A loop, closed by the keyword that belongs to its own. -/
def loop? (bound : Nat) (body : ReadM (Option (Node Span))) : ReadM (Option (Node Span)) := do
  let start ← here
  match ← wordOf? loopWords with
  | none => return none
  | some keyword =>
    let cond ← bracedPhrase bound
    let inner ← body
    closingWord ("END" ++ keyword)
    return some (.loop (← spanFrom start) keyword cond inner)

/-- A function, closed by the keyword that belongs to its own. -/
def function? (bound : Nat) (body : ReadM (Option (Node Span))) :
    ReadM (Option (Node Span)) := do
  let start ← here
  match ← wordOf? functionWords with
  | none => return none
  | some kind =>
    let name ← bracedName
    let params ← bracedPhrase bound
    let inner ← body
    closingWord ("END" ++ kind)
    return some (.function (← spanFrom start) kind name params inner)

/-- The first of two productions that applies. -/
def orElse? (first second : ReadM (Option (Node Span))) : ReadM (Option (Node Span)) := do
  match ← first with
  | some node => return some node
  | none => second

/-- A statement whose bodies are read by `body`. -/
def statement? (bound : Nat) (body : ReadM (Option (Node Span))) : ReadM (Option (Node Span)) :=
  orElse? (conditional? bound body) <|
  orElse? (loop? bound body) <|
  orElse? (function? bound body) <|
  orElse? (command? statementWords bound) <|
  orElse? (comment? bound) (call? bound)

/-- A block of the statements that are read, unless there are none. -/
def blockOf? (read : ReadM (List (Node Span))) : ReadM (Option (Node Span)) := do
  let start ← here
  match ← read with
  | [] => return none
  | children => return some (.block (← spanFrom start) children)

/-- Statements, as many as there are. -/
def statements : Nat → ReadM (List (Node Span))
  | 0 => return []
  | bound + 1 => do
    match ← statement? bound (blockOf? (statements bound)) with
    | some node => return node :: (← statements bound)
    | none => return []

/-- A block, unless it would be empty. -/
def block? (bound : Nat) : ReadM (Option (Node Span)) := blockOf? (statements bound)

/-! ## Environments -/

/-- The opening of an environment: its name and where it starts. -/
def environment? : ReadM (Option (String × Nat)) := do
  let start ← here
  if ← word? "begin" then return some (← bracedName, start) else return none

/-- The closing of the environment `name`. -/
def closeEnvironment (name : String) : ReadM Unit := do
  closingWord "end"
  openBrace
  discard (expect .ordinary (.only name))
  closeBrace

/-- Preconditions and blocks, as many as there are. -/
def sections : Nat → ReadM (List (Node Span))
  | 0 => return []
  | bound + 1 => do
    match ← orElse? (command? preconditionWords (bound + 1)) (block? (bound + 1)) with
    | some node => return node :: (← sections bound)
    | none => return []

/-- An algorithmic environment behind its opening at `start`, closing included. -/
def algorithmic (bound start : Nat) : ReadM (Node Span) := do
  let children ← sections bound
  let span ← spanFrom start
  closeEnvironment algorithmicName
  return .algorithmic span children

/-- A caption. -/
def caption? (bound : Nat) : ReadM (Option (Node Span)) := do
  let start ← here
  if ← word? "caption" then
    let text ← bracedPhrase bound
    return some (.caption (← spanFrom start) text)
  else return none

/-- Captions and algorithmic environments, as many as there are. -/
def parts : Nat → ReadM (List (Node Span))
  | 0 => return []
  | bound + 1 => do
    match ← environment? with
    | some (name, start) =>
      if name = algorithmicName then
        return (← algorithmic bound start) :: (← parts bound)
      else throw ⟨.misplacedEnvironment name, start⟩
    | none =>
      match ← caption? bound with
      | some node => return node :: (← parts bound)
      | none => return []

/-- An algorithm behind its opening at `start`, closing included. -/
def algorithm (bound start : Nat) : ReadM (Node Span) := do
  let children ← parts bound
  let span ← spanFrom start
  closeEnvironment algorithmName
  return .algorithm span children

/-- Environments, as many as there are. -/
def environments : Nat → ReadM (List (Node Span))
  | 0 => return []
  | bound + 1 => do
    match ← environment? with
    | none => return []
    | some (name, start) =>
      let node ←
        if name = algorithmName then algorithm bound start
        else if name = algorithmicName then algorithmic bound start
        else throw ⟨.unknownEnvironment name, start⟩
      return node :: (← environments bound)

/-- A document, up to the end of the source. -/
def document (bound : Nat) : ReadM (Node Span) := do
  let children ← environments bound
  discard (expect .endOfSource .any)
  return .root (← spanFrom 0) children

/-- Reads a document from a reader. -/
def read (r : Reader) : Except Fault (Node Span) :=
  match document r.remaining r with
  | .ok node _ => .ok node
  | .error fault _ => .error fault

end AlgoBox.Grammar

namespace AlgoBox

open Source

/-- The location of a span by the line table of its source. -/
def Grammar.Span.location (table : LineTable) (span : Grammar.Span) : Location :=
  table.location span.start (some span.stop)

/-- Reads a source as a tree whose nodes carry their locations. -/
def parse (source : String) : Except Fault (Node Location) := do
  let text := source.toList
  let node ← Grammar.read (← Reader.ofSource text)
  return node.map (Grammar.Span.location (LineTable.ofSource text))

end AlgoBox
