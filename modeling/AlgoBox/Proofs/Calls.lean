import AlgoBox.Node.Grammar

/-!
# Productions on top of calls

A production that repeats or nests takes a bound, and a bound that has run out ends it early.
What the grammar says has no bound: a repetition is one round and then the repetition again. Here
each production stands on top of whatever it calls where it repeats or nests (`Calls`), and one
more round of all of them is `Calls.next`. The productions under a bound are those on top of the
calls under that bound, by definition (`Calls.bounded`).
-/

namespace AlgoBox.Grammar

open Reader

/-- What the productions call where they repeat or nest. Items are leaves and groups of
braces, later arms those behind the first one, sections preconditions and blocks, and parts
captions and algorithmic environments. -/
structure Calls where
  items : ReadM (List (Node Span))
  laterArms : ReadM (List (Branch Span))
  statements : ReadM (List (Node Span))
  sections : ReadM (List (Node Span))
  parts : ReadM (List (Node Span))
  environments : ReadM (List (Node Span))

namespace Calls

variable (c : Calls)

/-! ## Productions on top of calls -/

/-- A phrase; it may be empty. -/
def phrase : ReadM (Phrase Span) := do
  let start ← here
  let inner ← c.items
  return .mk (← spanFrom start) inner

/-- A phrase between braces. -/
def bracedPhrase : ReadM (Phrase Span) := do
  openBrace
  let words ← c.phrase
  closeBrace
  return words

/-- One of some commands and the phrase behind it. -/
def command? (words : List String) : ReadM (Option (Node Span)) := do
  let start ← here
  match ← wordOf? words with
  | none => return none
  | some name =>
    let text ← c.phrase
    return some (.command (← spanFrom start) name text)

/-- A comment. -/
def comment? : ReadM (Option (Node Span)) := do
  let start ← here
  if ← word? "COMMENT" then
    let text ← c.bracedPhrase
    return some (.comment (← spanFrom start) text)
  else return none

/-- A call. -/
def call? : ReadM (Option (Node Span)) := do
  let start ← here
  if ← word? "CALL" then
    let name ← bracedName
    let args ← c.bracedPhrase
    return some (.call (← spanFrom start) name args)
  else return none

/-- A block, unless it would be empty. -/
def block? : ReadM (Option (Node Span)) := blockOf? c.statements

/-- An arm of a conditional behind its keyword at `start`. -/
def arm (start : Nat) : ReadM (Branch Span) := do
  let cond ← c.bracedPhrase
  let inner ← c.block?
  return .mk (← spanFrom start) cond inner

/-- A conditional. -/
def conditional? : ReadM (Option (Node Span)) := do
  let start ← here
  if ← word? "IF" then
    let first ← c.arm start
    let later ← c.laterArms
    let hasElse ← word? "ELSE"
    let elseBody ← if hasElse then c.block? else pure none
    closingWord "ENDIF"
    return some (.conditional (← spanFrom start) (first :: later) hasElse elseBody)
  else return none

/-- A loop, closed by the keyword that belongs to its own. -/
def loop? : ReadM (Option (Node Span)) := do
  let start ← here
  match ← wordOf? loopWords with
  | none => return none
  | some keyword =>
    let cond ← c.bracedPhrase
    let inner ← c.block?
    closingWord ("END" ++ keyword)
    return some (.loop (← spanFrom start) keyword cond inner)

/-- A function, closed by the keyword that belongs to its own. -/
def function? : ReadM (Option (Node Span)) := do
  let start ← here
  match ← wordOf? functionWords with
  | none => return none
  | some kind =>
    let name ← bracedName
    let params ← c.bracedPhrase
    let inner ← c.block?
    closingWord ("END" ++ kind)
    return some (.function (← spanFrom start) kind name params inner)

/-- A statement. -/
def statement? : ReadM (Option (Node Span)) :=
  orElse? c.conditional? <|
  orElse? c.loop? <|
  orElse? c.function? <|
  orElse? (c.command? statementWords) <|
  orElse? c.comment? c.call?

/-- An algorithmic environment behind its opening at `start`, closing included. -/
def algorithmic (start : Nat) : ReadM (Node Span) := do
  let children ← c.sections
  let span ← spanFrom start
  closeEnvironment algorithmicName
  return .algorithmic span children

/-- A caption. -/
def caption? : ReadM (Option (Node Span)) := do
  let start ← here
  if ← word? "caption" then
    let text ← c.bracedPhrase
    return some (.caption (← spanFrom start) text)
  else return none

/-- An algorithm behind its opening at `start`, closing included. -/
def algorithm (start : Nat) : ReadM (Node Span) := do
  let children ← c.parts
  let span ← spanFrom start
  closeEnvironment algorithmName
  return .algorithm span children

/-- A document, up to the end of the source. -/
def document : ReadM (Node Span) := do
  let children ← c.environments
  discard (expect .endOfSource .any)
  return .root (← spanFrom 0) children

/-! ## Rounds -/

/-- A leaf or a group of braces, and what is called behind it. -/
def itemsRound : ReadM (List (Node Span)) := do
  match ← leaf? with
  | some leaf => return leaf :: (← c.items)
  | none =>
    match ← accept .openBrace .any with
    | none => return []
    | some _ =>
      let start ← here
      let inner ← c.items
      let span ← spanFrom start
      closeBrace
      return .text (.mk span inner) :: (← c.items)

/-- An arm behind the first one, and what is called behind it. -/
def laterArmsRound : ReadM (List (Branch Span)) := do
  let start ← here
  if ← word? "ELIF" then
    return (← c.arm start) :: (← c.laterArms)
  else return []

/-- A statement, and what is called behind it. -/
def statementsRound : ReadM (List (Node Span)) := do
  match ← c.statement? with
  | some node => return node :: (← c.statements)
  | none => return []

/-- A precondition or a block, and what is called behind it. -/
def sectionsRound : ReadM (List (Node Span)) := do
  match ← orElse? (c.command? preconditionWords) c.block? with
  | some node => return node :: (← c.sections)
  | none => return []

/-- A caption or an algorithmic environment, and what is called behind it. -/
def partsRound : ReadM (List (Node Span)) := do
  match ← environment? with
  | some (name, start) =>
    if name = algorithmicName then
      return (← c.algorithmic start) :: (← c.parts)
    else throw ⟨.misplacedEnvironment name, start⟩
  | none =>
    match ← c.caption? with
    | some node => return node :: (← c.parts)
    | none => return []

/-- An environment, and what is called behind it. -/
def environmentsRound : ReadM (List (Node Span)) := do
  match ← environment? with
  | none => return []
  | some (name, start) =>
    let node ←
      if name = algorithmName then c.algorithm start
      else if name = algorithmicName then c.algorithmic start
      else throw ⟨.unknownEnvironment name, start⟩
    return node :: (← c.environments)

/-- One more round of everything. Sections begin with statements at the same place, so these are
unrolled first. -/
def next : Calls where
  items := c.itemsRound
  laterArms := c.laterArmsRound
  statements := c.statementsRound
  sections := { c with statements := c.statementsRound }.sectionsRound
  parts := c.partsRound
  environments := c.environmentsRound

/-- A number of rounds of everything in front of the calls. -/
def unroll : Nat → Calls
  | 0 => c
  | rounds + 1 => (unroll rounds).next

/-! ## Calls under a bound -/

/-- The calls under a bound, those of later arms and of sections under bounds of their own. -/
def boundedBy (bound arms sections : Nat) : Calls where
  items := Grammar.items bound
  laterArms := Grammar.laterArms (Grammar.arm bound (Grammar.block? bound)) arms
  statements := Grammar.statements bound
  sections := Grammar.sections sections
  parts := Grammar.parts bound
  environments := Grammar.environments bound

/-- The calls under a bound. -/
def bounded (bound : Nat) : Calls := boundedBy bound bound bound

section Bounded

variable (bound : Nat)

theorem bounded_document : (bounded bound).document = Grammar.document bound := rfl

theorem items_succ : Grammar.items (bound + 1) = (bounded bound).itemsRound := rfl

theorem statements_succ : Grammar.statements (bound + 1) = (bounded bound).statementsRound := rfl

theorem parts_succ : Grammar.parts (bound + 1) = (bounded bound).partsRound := rfl

theorem environments_succ :
    Grammar.environments (bound + 1) = (bounded bound).environmentsRound := rfl

theorem laterArms_succ (arms sections : Nat) :
    Grammar.laterArms (Grammar.arm bound (Grammar.block? bound)) (arms + 1) =
      (boundedBy bound arms sections).laterArmsRound := rfl

theorem sections_succ (arms : Nat) :
    Grammar.sections (bound + 1) =
      { boundedBy (bound + 1) arms bound with
        statements := (bounded bound).statementsRound }.sectionsRound := rfl

end Bounded

end Calls

end AlgoBox.Grammar
