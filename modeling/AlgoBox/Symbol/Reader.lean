import AlgoBox.Fault
import AlgoBox.Symbol.Scan

/-!
# Reading symbols

A reader holds the current symbol and those to come. A symbol is consumed only
if it is of a wanted kind and text, and consuming it makes the next one current.
Where no next symbol can be recognized, consuming fails and the current symbol
stays, so the same failure meets every later attempt. The end of the source can
be consumed any number of times.
-/

namespace AlgoBox

open AlgoBox.Symbol

/-- A place between two symbols of a source: the symbol that is looked at and
consumed next, those behind it and what follows the last one, and the text and
end of the symbol consumed last. -/
structure Reader where
  current : Symbol
  upcoming : List Symbol
  ending : Ending
  lastText : Option String
  lastEnd : Nat
deriving DecidableEq

/-- Computations that read symbols and may meet a fault. The reader outlives a
fault. -/
abbrev ReadM := EStateM Fault Reader

namespace Reader

/-- A reader before the first symbol of a scan. -/
def ofScan (scan : Scan) : Except Fault Reader :=
  match scan.symbols, scan.ending with
  | s :: rest, ending => .ok ⟨s, rest, ending, none, 0⟩
  | [], .complete length => .ok ⟨.atEnd length, [], scan.ending, none, 0⟩
  | [], .unrecognized offset => .error ⟨.unrecognizable, offset⟩

/-- A reader before the first symbol of a source. -/
def ofSource (source : List Char) : Except Fault Reader := ofScan (scan source)

/-- The number of symbols not yet consumed, the end of the source not counted. -/
def remaining (r : Reader) : Nat :=
  if r.current.kind = .endOfSource then 0 else r.upcoming.length + 1

/-- The current symbol is of a kind and has a wanted text. -/
def holds (r : Reader) (kind : Kind) (wanted : Wanted) : Bool :=
  r.current.kind = kind && wanted.admits r.current.text

/-- Consumes the current symbol. -/
def consume : ReadM String := fun r =>
  let text := r.current.text.getD ""
  let consumed := { r with lastText := r.current.text, lastEnd := r.current.stop }
  match r.upcoming, r.ending with
  | s :: rest, _ => .ok text { consumed with current := s, upcoming := rest }
  | [], .complete length => .ok text { consumed with current := .atEnd length }
  | [], .unrecognized offset => .error ⟨.unrecognizable, offset⟩ consumed

/-- Consumes the current symbol if it is of a kind and has a wanted text. -/
def accept (kind : Kind) (wanted : Wanted) : ReadM (Option String) := do
  if (← get).holds kind wanted then return some (← consume) else return none

/-- Consumes the current symbol, which has to be of a kind and have a wanted
text. -/
def expect (kind : Kind) (wanted : Wanted) : ReadM String := do
  let current := (← get).current
  if current.kind ≠ kind then
    throw ⟨.wrongKind kind current.kind, current.start⟩
  else if !wanted.admits current.text then
    throw ⟨.wrongText wanted current.text, current.start⟩
  else
    consume

/-- What a run over the symbols gives: those consumed, with the end of the
source if it was reached, and the fault that stopped the run. -/
structure Run where
  symbols : List Symbol
  stopped : Option Fault

/-- Consumes up to `count` symbols. A run ends at the end of the source, which
it lists and does not consume, and at a fault, where the symbol that could not
be consumed is not listed. -/
def run : Nat → Reader → Run × Reader
  | 0, r => (⟨[], none⟩, r)
  | count + 1, r =>
    if r.current.kind = .endOfSource then (⟨[r.current], none⟩, r)
    else
      match consume r with
      | .error fault r' => (⟨[], some fault⟩, r')
      | .ok _ r' =>
        let (rest, last) := run count r'
        (⟨r.current :: rest.symbols, rest.stopped⟩, last)

/-- Consumes all symbols. -/
def runAll (r : Reader) : Run × Reader := run (r.remaining + 1) r

/-! ## Driving a reader step by step -/

/-- One use of a reader: look at the current symbol or at the source, consume
the current symbol if it matches, consume it where it has to match, or consume
up to a number of symbols, or all of them. -/
inductive Step where
  | current
  | source
  | accept (kind : Kind) (wanted : Wanted)
  | expect (kind : Kind) (wanted : Wanted)
  | run (count : Option Nat)

/-- What one use of a reader gives. -/
inductive Answer where
  | symbol (s : Symbol)
  | text (s : Option String)
  | run (r : Run)
  | fault (f : Fault)

/-- Uses a reader of a source once. -/
def perform (source : String) (r : Reader) : Step → Answer × Reader
  | .current => (.symbol r.current, r)
  | .source => (.text (some source), r)
  | .accept kind wanted =>
    match accept kind wanted r with
    | .ok text r' => (.text text, r')
    | .error fault r' => (.fault fault, r')
  | .expect kind wanted =>
    match expect kind wanted r with
    | .ok text r' => (.text (some text), r')
    | .error fault r' => (.fault fault, r')
  | .run count =>
    let (result, r') := count.elim r.runAll (run · r)
    (.run result, r')

/-- Uses a reader many times and gives each answer with the reader after it. -/
def performAll (source : String) : Reader → List Step → List (Answer × Reader)
  | _, [] => []
  | r, step :: rest =>
    let (answer, r') := perform source r step
    (answer, r') :: performAll source r' rest

end Reader

end AlgoBox
