import AlgoBox.Convert

/-!
# Sessions

A session keeps a processor, that is options and what turns formulas into
markup, the trees read so far, and a surface that markup is attached to. A step
that fails leaves all of them as they were.
-/

namespace AlgoBox

open Source

/-- Options together with what turns formulas into markup. -/
structure Processor where
  options : Options := Options.default
  typesetter : Typesetter := none

/-- The state of a session: the processor in force, the trees read, what has
been attached, and the formulas that callers' functions were given so far. -/
structure Session where
  processor : Processor := {}
  trees : List (Node Location) := []
  surface : List String := []
  formulas : List String := []

namespace Session

/-- One step of a session: replace the processor, turn a source into markup,
read a source and keep the tree, render a kept tree or write its outline, or
turn a source into markup and attach it to the surface, or to none. -/
inductive Step where
  | configure (request : Options.Request) (typesetter : Typesetter)
  | convert (source : String)
  | read (source : String)
  | render (index : Nat)
  | dump (index : Nat)
  | attach (source : Option String)
  | attachNowhere (source : Option String)

/-- What a step gives: the options now in force, a text, the number of a tree,
or the markup attached and the length of the surface before. -/
inductive Answer where
  | options (options : Options)
  | text (s : String)
  | index (n : Nat)
  | attached (markup : String) (before : Nat)

/-- Sessions log nothing. -/
def level : Log.Level := .warning

/-- A kept tree. -/
def tree (s : Session) (index : Nat) : Conversion (Node Location) :=
  .ofExcept (s.trees[index]?.elim (.error (.noTree index)) .ok)

/-- What a step gives and the session it would lead to. -/
def attempt (s : Session) : Step → Conversion (Answer × Session)
  | .configure request typesetter => do
    let options ← Options.convert level request
    return (.options options, { s with processor := ⟨options, typesetter⟩ })
  | .convert source => do
    let tree ← readTree level source
    let markup ← renderTree level s.processor.options s.processor.typesetter tree
    return (.text markup, s)
  | .read source => do
    let tree ← readTree level source
    return (.index s.trees.length, { s with trees := s.trees ++ [tree] })
  | .render index => do
    let tree ← s.tree index
    let markup ← renderTree level s.processor.options s.processor.typesetter tree
    return (.text markup, s)
  | .dump index => do
    let tree ← s.tree index
    let outline ← .ofExcept (tree.outline.mapError .outline)
    return (.text (outline.dump 0), s)
  | .attach source => do
    let source ← .ofExcept (source.elim (.error .noSource) .ok)
    let tree ← readTree level source
    let markup ← renderTree level s.processor.options none tree
    return (.attached markup s.surface.length, { s with surface := s.surface ++ [markup] })
  | .attachNowhere _ => .ofExcept (.error .noSurface)

/-- Takes a step. The formulas of a step that fails are counted all the same. -/
def perform (s : Session) (step : Step) : Except Failure Answer × Session :=
  let c := s.attempt step
  let formulas := s.formulas ++ c.formulas
  match c.result with
  | .ok (answer, next) => (.ok answer, { next with formulas })
  | .error failure => (.error failure, { s with formulas })

/-- Takes steps one after the other and gives each answer with the session
after it. -/
def run : Session → List Step → List (Except Failure Answer × Session)
  | _, [] => []
  | s, step :: rest =>
    let (answer, next) := s.perform step
    (answer, next) :: run next rest

end Session

end AlgoBox
