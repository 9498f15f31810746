import AlgoBox.Session
import AlgoBox.Proofs.Unreported
import Mathlib.Data.List.Forall2

/-!
# Sessions

A session is no more than what its steps have given (`Accounts`): the processor
of the last step that put one in force, the trees of the sources that were
read, and the markup that was attached, in order. One step keeps it so
(`Accounts.perform`), and by induction every run does (`Accounts.after`). A step
that fails leaves the session as it is, and whatever markup a step gives is that
of its source on its own.
-/

namespace AlgoBox

open Html Source

/-! ## A source on its own -/

theorem Indent.ofValue_toValue (indent : Indent) : Indent.ofValue indent.toValue = .ok indent := by
  cases indent with
  | whole ems h => simp [toValue, ofValue, h]
  | measured ems h h' => simp [toValue, ofValue, ofBinary64?, h, h']

/-- Options are made again from their values. -/
theorem Options.ofFields_toList (o : Options) : Options.ofFields o.toList = .ok o := by
  have hentries : ofFields o.toList = ofEntries [(.indent, o.indent.toValue),
      (.commentSymbol, o.commentSymbol), (.lineNumberPunc, o.lineNumberPunc),
      (.lineNumber, o.lineNumber)] := rfl
  have hindent : valueOf [(.indent, o.indent.toValue), (.commentSymbol, o.commentSymbol),
      (.lineNumberPunc, o.lineNumberPunc), (.lineNumber, o.lineNumber)] .indent =
        o.indent.toValue := rfl
  rw [hentries, ofEntries, hindent, Indent.ofValue_toValue]
  rfl

namespace Session

/-- The markup of a source by itself, with the options of a processor. -/
def alone (p : Processor) (source : String) : Except Failure String :=
  (toHtml level (.fields p.options.toList) p.typesetter (some source)).result

theorem alone_eq (p : Processor) (source : String) :
    alone p source = (do
      let tree ← (readTree level source).result
      (renderTree level p.options p.typesetter tree).result) := by
  unfold alone toHtml Options.Request.ready Options.Request.prepare
  simp only [Conversion.result_bind, Options.ofFields_toList]
  rfl

/-! ## What has happened -/

/-- A step and what it gave. -/
abbrev Event : Type := Step × Except Failure Answer

/-- The markup that an event attached. -/
def Event.attached? : Event → Option String
  | (.attach _, .ok (.attached markup _)) => some markup
  | _ => none

/-- The source whose tree an event kept. -/
def Event.kept? : Event → Option String
  | (.read source, .ok _) => some source
  | _ => none

/-- The processor that an event put in force. -/
def Event.processor? : Event → Option Processor
  | (.configure _ typesetter, .ok (.options options)) => some ⟨options, typesetter⟩
  | _ => none

/-- The markup that events attached, in order. -/
def attached (events : List Event) : List String := events.filterMap Event.attached?

/-- The sources whose trees events kept, in order. -/
def kept (events : List Event) : List String := events.filterMap Event.kept?

/-- The processor in force after events, if they began with some processor. -/
def inForce (start : Processor) (events : List Event) : Processor :=
  (events.filterMap Event.processor?).getLastD start

/-- The session after some steps. -/
def after (s : Session) (steps : List Step) : Session :=
  steps.foldl (fun s step => (s.perform step).2) s

/-- Some steps and what they give. -/
def events (s : Session) (steps : List Step) : List Event :=
  steps.zip ((s.run steps).map Prod.fst)

/-- A session is what events have made of it: the processor is the last one that was put in
force, the trees are those of the sources that were read, and the surface holds what was
attached. -/
structure Accounts (start : Processor) (events : List Event) (s : Session) : Prop where
  processor : s.processor = inForce start events
  trees : List.Forall₂ (fun source tree => parse source = .ok tree) (kept events) s.trees
  surface : s.surface = attached events

section Events

variable (start : Processor) (events : List Event) (event : Event)

theorem attached_concat :
    attached (events ++ [event]) = attached events ++ event.attached?.toList := by
  unfold attached
  rw [List.filterMap_append]
  cases h : event.attached? <;> simp [h]

theorem kept_concat : kept (events ++ [event]) = kept events ++ event.kept?.toList := by
  unfold kept
  rw [List.filterMap_append]
  cases h : event.kept? <;> simp [h]

theorem inForce_concat :
    inForce start (events ++ [event]) = event.processor?.getD (inForce start events) := by
  unfold inForce
  rw [List.filterMap_append]
  cases h : event.processor? <;> simp [h]

end Events

/-! ## One step -/

variable {s next : Session} {step : Step} {answer : Answer} {failure : Failure}

/-- What a step that succeeds gives and leads to. -/
inductive Takes (s : Session) : Step → Answer → Session → Prop
  | configure {request : Options.Request} {typesetter : Typesetter} {options : Options} :
      Takes s (.configure request typesetter) (.options options)
        { s with processor := ⟨options, typesetter⟩ }
  | read {source : String} {tree : Node Location} : parse source = .ok tree →
      Takes s (.read source) (.index s.trees.length) { s with trees := s.trees ++ [tree] }
  | attach {source : Option String} {markup : String} :
      Takes s (.attach source) (.attached markup s.surface.length)
        { s with surface := s.surface ++ [markup] }
  | convert {source markup : String} : Takes s (.convert source) (.text markup) s
  | render {index : Nat} {markup : String} : Takes s (.render index) (.text markup) s
  | dump {index : Nat} {outline : String} : Takes s (.dump index) (.text outline) s

/-- What comes of two requests in a row comes of the second one. -/
theorem result_bind_eq_ok {α β : Type} {c : Conversion α} {f : α → Conversion β} {b : β}
    (h : (c >>= f).result = .ok b) : ∃ a, c.result = .ok a ∧ (f a).result = .ok b := by
  rw [Conversion.result_bind] at h
  cases hc : c.result with
  | error failure =>
      rw [hc] at h
      cases h
  | ok a =>
      rw [hc] at h
      exact ⟨a, rfl, h⟩

theorem takes_of_attempt (h : (s.attempt step).result = .ok (answer, next)) :
    Takes s step answer next := by
  cases step with
  | configure request typesetter =>
      obtain ⟨options, -, h⟩ := result_bind_eq_ok h
      cases h
      exact .configure
  | convert source =>
      obtain ⟨tree, -, h⟩ := result_bind_eq_ok h
      obtain ⟨markup, -, h⟩ := result_bind_eq_ok h
      cases h
      exact .convert
  | read source =>
      obtain ⟨tree, htree, h⟩ := result_bind_eq_ok h
      cases h
      rw [readTree_result] at htree
      cases hparse : parse source with
      | error fault =>
          rw [hparse] at htree
          cases htree
      | ok tree' =>
          rw [hparse] at htree
          cases htree
          exact .read hparse
  | render index =>
      obtain ⟨tree, -, h⟩ := result_bind_eq_ok h
      obtain ⟨markup, -, h⟩ := result_bind_eq_ok h
      cases h
      exact .render
  | dump index =>
      obtain ⟨tree, -, h⟩ := result_bind_eq_ok h
      obtain ⟨outline, -, h⟩ := result_bind_eq_ok h
      cases h
      exact .dump
  | attach source =>
      obtain ⟨source, -, h⟩ := result_bind_eq_ok h
      obtain ⟨tree, -, h⟩ := result_bind_eq_ok h
      obtain ⟨markup, -, h⟩ := result_bind_eq_ok h
      cases h
      exact .attach
  | attachNowhere source => cases h

theorem perform_fst (s : Session) (step : Step) :
    (s.perform step).1 = (s.attempt step).result.map Prod.fst := by
  unfold perform
  cases h : (s.attempt step).result with
  | error failure =>
      simp only [h]
      rfl
  | ok taken =>
      simp only [h]
      rfl

/-- Two sessions agree in all but the formulas that were counted. -/
structure SameState (s s' : Session) : Prop where
  processor : s.processor = s'.processor
  trees : s.trees = s'.trees
  surface : s.surface = s'.surface

/-- A step fails and leaves the session as it is, or it succeeds. -/
theorem perform_cases (s : Session) (step : Step) :
    (∃ failure, (s.perform step).1 = .error failure ∧ SameState (s.perform step).2 s) ∨
    ∃ answer next, (s.perform step).1 = .ok answer ∧ SameState (s.perform step).2 next ∧
      Takes s step answer next := by
  unfold perform
  cases h : (s.attempt step).result with
  | error failure =>
      simp only [h]
      exact .inl ⟨failure, rfl, rfl, rfl, rfl⟩
  | ok taken =>
      obtain ⟨answer, next⟩ := taken
      simp only [h]
      exact .inr ⟨answer, next, rfl, ⟨rfl, rfl, rfl⟩, takes_of_attempt h⟩

theorem Accounts.sameState {start : Processor} {events : List Event} {s s' : Session}
    (hsame : SameState s s') (h : Accounts start events s') : Accounts start events s := by
  obtain ⟨hprocessor, htrees, hsurface⟩ := hsame
  exact ⟨hprocessor ▸ h.processor, htrees ▸ h.trees, hsurface ▸ h.surface⟩

/-- One more event, with the trees that it adds. -/
theorem Accounts.concat {start : Processor} {events : List Event} {event : Event}
    {trees : List (Node Location)} (h : Accounts start events s)
    (hprocessor : next.processor = event.processor?.getD s.processor)
    (htrees : next.trees = s.trees ++ trees)
    (hparse : List.Forall₂ (fun source tree => parse source = .ok tree) event.kept?.toList trees)
    (hsurface : next.surface = s.surface ++ event.attached?.toList) :
    Accounts start (events ++ [event]) next := by
  obtain ⟨hp, ht, hs⟩ := h
  constructor
  · rw [hprocessor, inForce_concat, hp]
  · rw [htrees, kept_concat]
    exact List.rel_append ht hparse
  · rw [hsurface, attached_concat, hs]

/-- A step that fails is as if it had not been taken. -/
theorem Accounts.fail {start : Processor} {events : List Event} (h : Accounts start events s)
    (step : Step) (failure : Failure) : Accounts start (events ++ [(step, .error failure)]) s := by
  have hnil {α : Type} (l : List α) : l = l ++ [] := (List.append_nil l).symm
  cases step <;> exact h.concat rfl (hnil _) .nil (hnil _)

theorem Accounts.take {start : Processor} {events : List Event} (h : Accounts start events s)
    (htakes : Takes s step answer next) : Accounts start (events ++ [(step, .ok answer)]) next := by
  have hnil {α : Type} (l : List α) : l = l ++ [] := (List.append_nil l).symm
  cases htakes with
  | configure => exact h.concat rfl (hnil _) .nil (hnil _)
  | read hparse => exact h.concat rfl rfl (.cons hparse .nil) (hnil _)
  | attach => exact h.concat rfl (hnil _) .nil rfl
  | convert | render | dump => exact h.concat rfl (hnil _) .nil (hnil _)

/-- Every step keeps a session to what has happened. -/
theorem Accounts.perform {start : Processor} {events : List Event} (h : Accounts start events s)
    (step : Step) :
    Accounts start (events ++ [(step, (s.perform step).1)]) (s.perform step).2 := by
  rcases perform_cases s step with
    ⟨failure, hfailure, hsame⟩ | ⟨answer, next, hanswer, hsame, htakes⟩
  · rw [hfailure]
    exact (h.fail step failure).sameState hsame
  · rw [hanswer]
    exact (h.take htakes).sameState hsame

/-! ## All steps -/

/-- Every run keeps a session to what has happened. -/
theorem Accounts.after {start : Processor} {past : List Event} (h : Accounts start past s)
    (steps : List Step) : Accounts start (past ++ s.events steps) (s.after steps) := by
  -- each step moves its event from the run to the past
  induction steps generalizing past s with
  | nil =>
      rw [show s.events [] = [] from rfl, List.append_nil]
      exact h
  | cons step rest ih =>
      have hrest := ih (h.perform step)
      rw [List.append_assoc] at hrest
      exact hrest

/-- A run goes on from the session that its first steps lead to. -/
theorem run_append (s : Session) (past future : List Step) :
    s.run (past ++ future) = s.run past ++ (s.after past).run future := by
  induction past generalizing s with
  | nil => rfl
  | cons step rest ih => exact congrArg (s.perform step :: ·) (ih _)

/-! ## What a step gives -/

/-- What a step gives that comes down to one thing. -/
theorem perform_fst_of_attempt {α : Type} {x : Except Failure α} (give : α → Answer)
    (lead : α → Session) (h : (s.attempt step).result = x >>= fun a => .ok (give a, lead a)) :
    (s.perform step).1 = x.map give := by
  rw [perform_fst, h]
  cases x with
  | error failure => rfl
  | ok a => rfl

theorem perform_configure (s : Session) (request : Options.Request) (typesetter : Typesetter) :
    (s.perform (.configure request typesetter)).1 =
      (Options.convert level request).result.map .options := by
  refine perform_fst_of_attempt .options
    (fun options => { s with processor := ⟨options, typesetter⟩ }) ?_
  simp only [attempt, Conversion.result_bind]
  rfl

theorem perform_convert (s : Session) (source : String) :
    (s.perform (.convert source)).1 = (alone s.processor source).map .text := by
  refine perform_fst_of_attempt .text (fun _ => s) ?_
  rw [alone_eq, bind_assoc]
  simp only [attempt, Conversion.result_bind]
  rfl

theorem perform_attach (s : Session) (source : String) :
    (s.perform (.attach (some source))).1 =
      (alone { s.processor with typesetter := none } source).map
        (.attached · s.surface.length) := by
  refine perform_fst_of_attempt (.attached · s.surface.length)
    (fun markup => { s with surface := s.surface ++ [markup] }) ?_
  rw [alone_eq, bind_assoc]
  simp only [attempt, Conversion.result_bind]
  rfl

theorem perform_render (s : Session) {index : Nat} {tree : Node Location}
    (h : s.trees[index]? = some tree) :
    (s.perform (.render index)).1 =
      (renderTree level s.processor.options s.processor.typesetter tree).result.map .text := by
  refine perform_fst_of_attempt .text (fun _ => s) ?_
  simp only [attempt, Session.tree, h, Conversion.result_bind]
  rfl

theorem alone_of_parse {p : Processor} {source : String} {tree : Node Location}
    (h : parse source = .ok tree) :
    alone p source = (renderTree level p.options p.typesetter tree).result := by
  rw [alone_eq, readTree_result, h]
  rfl

/-- A tree that is kept is that of its source, and is rendered as its source would be. -/
theorem Accounts.render {start : Processor} {events : List Event} (h : Accounts start events s)
    (index : Nat) :
    (∃ source tree, (kept events)[index]? = some source ∧ s.trees[index]? = some tree ∧
      parse source = .ok tree ∧
      (s.perform (.render index)).1 =
        (renderTree level s.processor.options s.processor.typesetter tree).result.map .text ∧
      (s.perform (.render index)).1 = (alone s.processor source).map .text) ∨
    ((kept events).length ≤ index ∧ (s.perform (.render index)).1 = .error (.noTree index)) := by
  have hlength := h.trees.length_eq
  by_cases hindex : index < (kept events).length
  · have htree : index < s.trees.length := hlength ▸ hindex
    have hparse : parse (kept events)[index] = .ok s.trees[index] := h.trees.get hindex htree
    have hrender := perform_render s (List.getElem?_eq_getElem htree)
    refine .inl ⟨_, _, List.getElem?_eq_getElem hindex, List.getElem?_eq_getElem htree, hparse,
      hrender, ?_⟩
    rw [hrender, alone_of_parse hparse]
  · have hnone : s.trees[index]? = none := List.getElem?_eq_none (by omega)
    refine .inr ⟨by omega, ?_⟩
    rw [perform_fst]
    simp only [attempt, Session.tree, hnone, Conversion.result_bind]
    rfl

/-- Every step of a run is taken in the session that the steps before it lead to. The
surface of that session holds the markup that was attached so far, in order. A step
that fails leaves processor, trees and surface as they are. And the markup that a step
gives is that of its source on its own, or of a kept tree on its own, with the processor
in force: nothing else of what has happened counts. -/
theorem sessions_have_no_history (processor : Processor) (past future : List Step) (step : Step) :
    let start : Session := { processor }
    let s := start.after past
    let happened := start.events past
    let now := inForce processor happened
    start.run (past ++ step :: future) =
      start.run past ++ s.perform step :: (s.perform step).2.run future ∧
    s.surface = attached happened ∧ s.processor = now ∧
    (∀ failure, (s.perform step).1 = .error failure → SameState (s.perform step).2 s) ∧
    (∀ request typesetter, (s.perform (.configure request typesetter)).1 =
      (Options.convert level request).result.map .options) ∧
    (∀ source, (s.perform (.convert source)).1 = (alone now source).map .text) ∧
    (∀ source, (s.perform (.attach (some source))).1 =
      (alone { now with typesetter := none } source).map (.attached · (attached happened).length)) ∧
    ∀ index,
      (∃ source tree, (kept happened)[index]? = some source ∧ s.trees[index]? = some tree ∧
        parse source = .ok tree ∧
        (s.perform (.render index)).1 =
          (renderTree level now.options now.typesetter tree).result.map .text ∧
        (s.perform (.render index)).1 = (alone now source).map .text) ∨
      ((kept happened).length ≤ index ∧
        (s.perform (.render index)).1 = .error (.noTree index)) := by
  intro start s happened now
  have hstart : Accounts processor [] start := ⟨rfl, .nil, rfl⟩
  have hs : Accounts processor happened s := hstart.after past
  have hnow : s.processor = now := hs.processor
  refine ⟨run_append start past _, hs.surface, hnow, ?_, perform_configure s, ?_, ?_, ?_⟩
  · intro failure hfailure
    rcases perform_cases s step with ⟨failure', -, hsame⟩ | ⟨answer, next, hanswer, -⟩
    · exact hsame
    · rw [hanswer] at hfailure
      cases hfailure
  · intro source
    rw [perform_convert, hnow]
  · intro source
    rw [perform_attach, hnow, hs.surface]
  · rw [← hnow]
    exact hs.render

end Session

end AlgoBox
