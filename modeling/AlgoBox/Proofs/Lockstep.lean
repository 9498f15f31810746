import AlgoBox.Proofs.Correspondence
import AlgoBox.Proofs.Unrolling

/-!
# Productions in lockstep

Each production keeps readers in correspondence if what it calls does (`CallsAlike`): behind a
symbol that it consumes it calls on what remains, which is less. So calls that last for as many
rounds as there are symbols are alike (`Calls.Lasts.alike`), whatever stands behind these rounds.
This compares two bounds, as long as neither runs out before the symbols do (`bounded_alike`).
What productions give differs in spans only, and these correspond.
-/

namespace AlgoBox.Grammar

open Reader Correspondence

variable {C : Correspondence} {n : Nat} {c d : Calls}

/-! ## What the productions begin with -/

section Places

variable {β : Type} {m : β → Nat} {v : C.View β} {start start' : Nat}

theorem alike_here_bind {f g : Nat → ReadM β}
    (h : ∀ start start', C.Meets start start' → C.Alike n m v (f start) (g start')) :
    C.Alike n m v (here >>= f) (here >>= g) := by
  unfold here
  simp only [bind_assoc, pure_bind]
  refine .get_bind (fun r r' hr => h _ _ (C.start_meets hr)) fun r hr => ?_
  exact (h _ _ ((C.same hr).2 r.current.start)).stays hr

theorem alike_spanFrom_bind {f g : Span → ReadM β} (hstart : C.Meets start start')
    (h : ∀ span span', C.first span = C.second span' → C.Alike n m v (f span) (g span')) :
    C.Alike n m v (spanFrom start >>= f) (spanFrom start' >>= g) := by
  unfold spanFrom
  simp only [bind_assoc, pure_bind]
  refine .get_bind (fun r r' hr => h _ _ (C.span_eq hr hstart)) fun r hr => ?_
  exact (h _ _ (congrFun (C.same hr).1 ⟨start, max start r.lastEnd⟩)).stays hr

/-- A result whose span is all that is left to be found. -/
theorem alike_spanFrom {f g : Span → β} (hstart : C.Meets start start')
    (h : ∀ span span', C.first span = C.second span' → v.Agree (f span) (g span'))
    (hn : ∀ span, n ≤ m (f span)) :
    C.Alike n m v (return f (← spanFrom start)) (return g (← spanFrom start')) :=
  alike_spanFrom_bind hstart fun span span' hspan => .pure (h span span' hspan) (hn span)

/-- A command word that may be left out. -/
theorem alike_word?_bind (text : String) {f g : Bool → ReadM β}
    (hyes : C.Alike (n - 1) m v (f true) (g true)) (hno : C.Alike n m v (f false) (g false)) :
    C.Alike n m v (word? text >>= f) (word? text >>= g) := by
  unfold word?
  simp only [bind_assoc, pure_bind]
  refine (Alike.accept (by decide) _).bind_same fun found => ?_
  cases found with
  | none => exact hno
  | some text => exact hyes

theorem alike_discard {p : ReadM β} (h : C.Alike n (fun _ => n) (.exact C β) p p) :
    C.Alike n (fun _ => n) (.exact C Unit) (discard p) (discard p) := by
  rw [discard_eq]
  exact h.bind_same fun _ => .pure rfl (Nat.le_refl _)

end Places

section Words

theorem alike_wordOf (texts : List String) :
    C.Alike n (spent n) (.exact C (Option String)) (wordOf? texts) (wordOf? texts) :=
  .accept (by decide) _

theorem alike_closingWord (text : String) :
    C.Alike n (fun _ => n) (.exact C Unit) (closingWord text) (closingWord text) :=
  alike_discard (.expect (by decide) _)

theorem alike_openBrace : C.Alike n (fun _ => n) (.exact C Unit) openBrace openBrace :=
  alike_discard (.expect (by decide) _)

theorem alike_closeBrace : C.Alike n (fun _ => n) (.exact C Unit) closeBrace closeBrace :=
  alike_discard (.expect (by decide) _)

theorem alike_bracedName : C.Alike n (fun _ => n) (.exact C String) bracedName bracedName := by
  unfold bracedName
  refine alike_openBrace.bind_same fun _ => ?_
  refine (Alike.expect (by decide) _).bind_same fun name => ?_
  exact alike_closeBrace.bind_same fun _ => .pure rfl (Nat.le_refl _)

end Words

/-! ## Phrases -/

theorem leafOf?_alike {forms : List (Symbol.Kind × Wanted × (String → Leaf))}
    (hforms : ∀ form ∈ forms, form.1 ≠ .endOfSource) :
    C.Alike n (spent n) (.exact C (Option Leaf)) (leafOf? forms) (leafOf? forms) := by
  induction forms with
  | nil => exact .pure rfl (Nat.le_refl _)
  | cons form rest ih =>
      obtain ⟨hform, hrest⟩ := List.forall_mem_cons.1 hforms
      unfold leafOf?
      refine (Alike.accept hform _).bind_same fun found => ?_
      cases found with
      | none => exact ih hrest
      | some text => exact .pure rfl (Nat.le_refl _)

theorem leaf?_alike : C.Alike n (spent n) (View.node C).option leaf? leaf? := by
  have hforms : ∀ form ∈ leafForms, form.1 ≠ .endOfSource := by decide
  unfold leaf?
  refine alike_here_bind fun start start' hstart => ?_
  refine (leafOf?_alike hforms).bind_same fun found => ?_
  cases found with
  | none => exact .pure .none (Nat.le_refl _)
  | some leaf =>
      refine alike_spanFrom hstart (fun span span' hspan => .some ?_) fun _ => Nat.le_refl _
      exact congrArg (Node.leaf · leaf) hspan

/-! ## Productions on top of calls -/

/-- With at most `n` symbols remaining the calls are alike. -/
structure CallsAlike (C : Correspondence) (n : Nat) (c d : Calls) : Prop where
  items : C.Alike n (fun _ => n) (View.node C).list c.items d.items
  laterArms : C.Alike n (fun _ => n) (View.branch C).list c.laterArms d.laterArms
  statements : C.Alike n (spentAll n) (View.node C).list c.statements d.statements
  sections : C.Alike n (fun _ => n) (View.node C).list c.sections d.sections
  parts : C.Alike n (fun _ => n) (View.node C).list c.parts d.parts
  environments : C.Alike n (fun _ => n) (View.node C).list c.environments d.environments

theorem orElse?_alike {first first' second second' : ReadM (Option (Node Span))}
    (hfirst : C.Alike n (spent n) (View.node C).option first first')
    (hsecond : C.Alike n (spent n) (View.node C).option second second') :
    C.Alike n (spent n) (View.node C).option (orElse? first second) (orElse? first' second') := by
  unfold orElse?
  exact hfirst.bind_found hsecond fun node node' hnode => .pure (.some hnode) (Nat.le_refl _)

theorem blockOf?_alike {read read' : ReadM (List (Node Span))}
    (hread : C.Alike n (spentAll n) (View.node C).list read read') :
    C.Alike n (spent n) (View.node C).option (blockOf? read) (blockOf? read') := by
  unfold blockOf?
  refine alike_here_bind fun start start' hstart => ?_
  refine hread.bind fun children children' hchildren => ?_
  have hmap := View.mapAll_eq hchildren
  cases (hchildren : List.Forall₂ _ _ _) with
  | nil => exact .pure .none (Nat.le_refl _)
  | cons _ _ =>
      refine alike_spanFrom hstart (fun span span' hspan => .some ?_) fun _ => Nat.le_refl _
      simp [Node.map, hspan, hmap]

section OnCalls

variable (h : CallsAlike C n c d)
include h

/-! ### Phrases -/

theorem phrase_alike : C.Alike n (fun _ => n) (.phrase C) c.phrase d.phrase := by
  unfold Calls.phrase
  refine alike_here_bind fun start start' hstart => ?_
  refine h.items.bind fun inner inner' hinner => ?_
  refine alike_spanFrom hstart (fun span span' hspan => ?_) fun _ => Nat.le_refl _
  simp [Phrase.map, hspan, View.mapAll_eq hinner]

theorem bracedPhrase_alike :
    C.Alike n (fun _ => n) (.phrase C) c.bracedPhrase d.bracedPhrase := by
  unfold Calls.bracedPhrase
  refine alike_openBrace.bind_same fun _ => ?_
  refine (phrase_alike h).bind fun words words' hwords => ?_
  exact alike_closeBrace.bind_same fun _ => .pure hwords (Nat.le_refl _)

theorem itemsRound_alike :
    C.Alike (n + 1) (fun _ => n + 1) (View.node C).list c.itemsRound d.itemsRound := by
  unfold Calls.itemsRound
  refine leaf?_alike.bind_found ?_ fun leaf leaf' hleaf => ?_
  · refine (Alike.accept (by decide) _).bind_same fun found => ?_
    cases found with
    | none => exact .pure .nil (Nat.le_refl _)
    | some brace =>
        refine alike_here_bind fun start start' hstart => ?_
        refine h.items.bind fun inner inner' hinner => ?_
        refine alike_spanFrom_bind hstart fun span span' hspan => ?_
        refine alike_closeBrace.bind_same fun _ => ?_
        refine h.items.bind fun rest rest' hrest => .pure (.cons ?_ hrest) (Nat.le_succ n)
        simp [Node.map, Phrase.map, hspan, View.mapAll_eq hinner]
  · exact h.items.bind fun rest rest' hrest => .pure (.cons hleaf hrest) (Nat.le_succ n)

/-! ### Statements -/

theorem command?_alike (words : List String) :
    C.Alike (n + 1) (spent (n + 1)) (View.node C).option (c.command? words)
      (d.command? words) := by
  unfold Calls.command?
  refine alike_here_bind fun start start' hstart => ?_
  refine (alike_wordOf words).bind_same fun found => ?_
  cases found with
  | none => exact .pure .none (Nat.le_refl _)
  | some name =>
      refine (phrase_alike h).bind fun text text' htext => ?_
      refine alike_spanFrom hstart (fun span span' hspan => .some ?_) fun _ => Nat.le_refl _
      simp [Node.map, hspan, View.phrase_eq htext]

theorem comment?_alike :
    C.Alike (n + 1) (spent (n + 1)) (View.node C).option c.comment? d.comment? := by
  unfold Calls.comment?
  refine alike_here_bind fun start start' hstart => ?_
  refine alike_word?_bind _ ?_ (.pure .none (Nat.le_refl _))
  refine (bracedPhrase_alike h).bind fun text text' htext => ?_
  refine alike_spanFrom hstart (fun span span' hspan => .some ?_) fun _ => Nat.le_refl _
  simp [Node.map, hspan, View.phrase_eq htext]

theorem call?_alike :
    C.Alike (n + 1) (spent (n + 1)) (View.node C).option c.call? d.call? := by
  unfold Calls.call?
  refine alike_here_bind fun start start' hstart => ?_
  refine alike_word?_bind _ ?_ (.pure .none (Nat.le_refl _))
  refine alike_bracedName.bind_same fun name => ?_
  refine (bracedPhrase_alike h).bind fun args args' hargs => ?_
  refine alike_spanFrom hstart (fun span span' hspan => .some ?_) fun _ => Nat.le_refl _
  simp [Node.map, hspan, View.phrase_eq hargs]

theorem block?_alike : C.Alike n (spent n) (View.node C).option c.block? d.block? :=
  blockOf?_alike h.statements

theorem body_alike : C.Alike n (fun _ => n) (View.node C).option c.block? d.block? :=
  (block?_alike h).mono (Nat.le_refl n) (spent_le n)

theorem arm_alike {start start' : Nat} (hstart : C.Meets start start') :
    C.Alike n (fun _ => n) (.branch C) (c.arm start) (d.arm start') := by
  unfold Calls.arm
  refine (bracedPhrase_alike h).bind fun cond cond' hcond => ?_
  refine (body_alike h).bind fun inner inner' hinner => ?_
  refine alike_spanFrom hstart (fun span span' hspan => ?_) fun _ => Nat.le_refl _
  simp [Branch.map, hspan, View.phrase_eq hcond, View.mapBody_eq hinner]

theorem laterArmsRound_alike :
    C.Alike (n + 1) (fun _ => n + 1) (View.branch C).list c.laterArmsRound d.laterArmsRound := by
  unfold Calls.laterArmsRound
  refine alike_here_bind fun start start' hstart => ?_
  refine alike_word?_bind _ ?_ (.pure .nil (Nat.le_refl _))
  refine (arm_alike h hstart).bind fun arm arm' harm => ?_
  exact h.laterArms.bind fun rest rest' hrest => .pure (.cons harm hrest) (Nat.le_succ n)

theorem conditional?_alike :
    C.Alike (n + 1) (spent (n + 1)) (View.node C).option c.conditional? d.conditional? := by
  unfold Calls.conditional?
  refine alike_here_bind fun start start' hstart => ?_
  refine alike_word?_bind _ ?_ (.pure .none (Nat.le_refl _))
  refine (arm_alike h hstart).bind fun first first' hfirst => ?_
  refine h.laterArms.bind fun later later' hlater => ?_
  have hend : ∀ (hasElse : Bool) (elseBody elseBody' : Option (Node Span)),
      (View.node C).option.Agree elseBody elseBody' →
      C.Alike n (spent (n + 1)) (View.node C).option
        (do
          closingWord "ENDIF"
          return some (.conditional (← spanFrom start) (first :: later) hasElse elseBody))
        (do
          closingWord "ENDIF"
          return some (.conditional (← spanFrom start') (first' :: later') hasElse elseBody')) := by
    intro hasElse elseBody elseBody' helse
    refine (alike_closingWord _).bind_same fun _ => ?_
    refine alike_spanFrom hstart (fun span span' hspan => .some ?_) fun _ => Nat.le_refl _
    have harms := View.arms_eq (.cons hfirst hlater)
    simp [Node.map, hspan, harms, View.mapBody_eq helse]
  refine alike_word?_bind _ ?_ (hend false none none .none)
  exact ((body_alike h).bind (hend true)).mono (Nat.sub_le n 1) fun _ => Nat.le_refl _

theorem loop?_alike :
    C.Alike (n + 1) (spent (n + 1)) (View.node C).option c.loop? d.loop? := by
  unfold Calls.loop?
  refine alike_here_bind fun start start' hstart => ?_
  refine (alike_wordOf _).bind_same fun found => ?_
  cases found with
  | none => exact .pure .none (Nat.le_refl _)
  | some keyword =>
      refine (bracedPhrase_alike h).bind fun cond cond' hcond => ?_
      refine (body_alike h).bind fun inner inner' hinner => ?_
      refine (alike_closingWord _).bind_same fun _ => ?_
      refine alike_spanFrom hstart (fun span span' hspan => .some ?_) fun _ => Nat.le_refl _
      simp [Node.map, hspan, View.phrase_eq hcond, View.mapBody_eq hinner]

theorem function?_alike :
    C.Alike (n + 1) (spent (n + 1)) (View.node C).option c.function? d.function? := by
  unfold Calls.function?
  refine alike_here_bind fun start start' hstart => ?_
  refine (alike_wordOf _).bind_same fun found => ?_
  cases found with
  | none => exact .pure .none (Nat.le_refl _)
  | some kind =>
      refine alike_bracedName.bind_same fun name => ?_
      refine (bracedPhrase_alike h).bind fun params params' hparams => ?_
      refine (body_alike h).bind fun inner inner' hinner => ?_
      refine (alike_closingWord _).bind_same fun _ => ?_
      refine alike_spanFrom hstart (fun span span' hspan => .some ?_) fun _ => Nat.le_refl _
      simp [Node.map, hspan, View.phrase_eq hparams, View.mapBody_eq hinner]

theorem statement?_alike :
    C.Alike (n + 1) (spent (n + 1)) (View.node C).option c.statement? d.statement? := by
  unfold Calls.statement?
  apply orElse?_alike (conditional?_alike h)
  apply orElse?_alike (loop?_alike h)
  apply orElse?_alike (function?_alike h)
  apply orElse?_alike (command?_alike h statementWords)
  exact orElse?_alike (comment?_alike h) (call?_alike h)

theorem statementsRound_alike :
    C.Alike (n + 1) (spentAll (n + 1)) (View.node C).list c.statementsRound
      d.statementsRound := by
  unfold Calls.statementsRound
  refine (statement?_alike h).bind_found (.pure .nil (Nat.le_refl _)) fun node node' hnode => ?_
  exact h.statements.bind fun rest rest' hrest => .pure (.cons hnode hrest) (spentAll_le n rest)

end OnCalls

/-! ### Environments

The closing brace is the last symbol of an environment. It is read apart from what is
in front of it, since a reader may leave with it. -/

/-- The closing of the environment `name` up to its closing brace. -/
def toClose (name : String) : ReadM Unit := do
  closingWord "end"
  openBrace
  discard (expect .ordinary (.only name))

theorem closeEnvironment_eq (name : String) :
    closeEnvironment name = (do toClose name; closeBrace) := by
  simp only [closeEnvironment, toClose, bind_assoc]

namespace Calls

variable (c : Calls)

/-- An algorithmic environment up to its closing brace. -/
def openAlgorithmic (start : Nat) : ReadM (Node Span) := do
  let children ← c.sections
  let span ← spanFrom start
  toClose algorithmicName
  return .algorithmic span children

/-- An algorithm up to its closing brace. -/
def openAlgorithm (start : Nat) : ReadM (Node Span) := do
  let children ← c.parts
  let span ← spanFrom start
  toClose algorithmName
  return .algorithm span children

/-- An environment of a document up to its closing brace. -/
def openEnvironment? : ReadM (Option (Node Span)) := do
  match ← environment? with
  | none => return none
  | some (name, start) =>
    if name = algorithmName then return some (← c.openAlgorithm start)
    else if name = algorithmicName then return some (← c.openAlgorithmic start)
    else throw ⟨.unknownEnvironment name, start⟩

theorem algorithmic_eq (start : Nat) :
    c.algorithmic start =
      (do let node ← c.openAlgorithmic start; closeBrace; return node) := by
  simp only [algorithmic, openAlgorithmic, closeEnvironment_eq, bind_assoc, pure_bind]

theorem algorithm_eq (start : Nat) :
    c.algorithm start = (do let node ← c.openAlgorithm start; closeBrace; return node) := by
  simp only [algorithm, openAlgorithm, closeEnvironment_eq, bind_assoc, pure_bind]

theorem environmentsRound_eq :
    c.environmentsRound = (do
      match ← c.openEnvironment? with
      | none => return []
      | some node =>
        closeBrace
        return node :: (← c.environments)) := by
  simp only [environmentsRound, openEnvironment?, bind_assoc]
  refine congrArg (environment? >>= ·) (funext fun found => ?_)
  cases found with
  | none => simp only [pure_bind]
  | some opening =>
      obtain ⟨name, start⟩ := opening
      dsimp only
      split
      · simp only [algorithm_eq, bind_assoc, pure_bind]
      · split
        · simp only [algorithmic_eq, bind_assoc, pure_bind]
        · rfl

end Calls

/-- The opening of an environment: names are the same, and offsets meet. -/
abbrev openingView (C : Correspondence) : C.View (String × Nat) :=
  (View.exact C String).pair (.offset C)

theorem environment?_alike :
    C.Alike n (spent n) (openingView C).option environment? environment? := by
  unfold environment?
  refine alike_here_bind fun start start' hstart => ?_
  refine alike_word?_bind _ ?_ (.pure .none (Nat.le_refl _))
  exact alike_bracedName.bind_same fun name => .pure (.some ⟨rfl, hstart⟩) (Nat.le_refl _)

theorem alike_toClose (name : String) :
    C.Alike n (fun _ => n) (.exact C Unit) (toClose name) (toClose name) := by
  unfold toClose
  refine (alike_closingWord _).bind_same fun _ => ?_
  refine alike_openBrace.bind_same fun _ => ?_
  exact alike_discard (.expect (by decide) _)

section OnCalls

variable (h : CallsAlike C n c d)
include h

/-- Sections begin with statements before a symbol is consumed. -/
theorem sectionsRound_alike {read read' : ReadM (List (Node Span))}
    (hread : C.Alike (n + 1) (spentAll (n + 1)) (View.node C).list read read') :
    C.Alike (n + 1) (fun _ => n + 1) (View.node C).list
      { c with statements := read }.sectionsRound { d with statements := read' }.sectionsRound := by
  unfold Calls.sectionsRound
  refine (orElse?_alike (command?_alike h preconditionWords) (blockOf?_alike hread)).bind_found
    (.pure .nil (Nat.le_refl _)) fun node node' hnode => ?_
  exact h.sections.bind fun rest rest' hrest => .pure (.cons hnode hrest) (Nat.le_succ n)

theorem openAlgorithmic_alike {start start' : Nat} (hstart : C.Meets start start') :
    C.Alike n (fun _ => n) (.node C) (c.openAlgorithmic start) (d.openAlgorithmic start') := by
  unfold Calls.openAlgorithmic
  refine h.sections.bind fun children children' hchildren => ?_
  refine alike_spanFrom_bind hstart fun span span' hspan => ?_
  refine (alike_toClose _).bind_same fun _ => .pure ?_ (Nat.le_refl _)
  simp [Node.map, hspan, View.mapAll_eq hchildren]

theorem algorithmic_alike {start start' : Nat} (hstart : C.Meets start start') :
    C.Alike n (fun _ => n) (.node C) (c.algorithmic start) (d.algorithmic start') := by
  rw [Calls.algorithmic_eq, Calls.algorithmic_eq]
  refine (openAlgorithmic_alike h hstart).bind fun node node' hnode => ?_
  exact alike_closeBrace.bind_same fun _ => .pure hnode (Nat.le_refl _)

theorem caption?_alike :
    C.Alike (n + 1) (spent (n + 1)) (View.node C).option c.caption? d.caption? := by
  unfold Calls.caption?
  refine alike_here_bind fun start start' hstart => ?_
  refine alike_word?_bind _ ?_ (.pure .none (Nat.le_refl _))
  refine (bracedPhrase_alike h).bind fun text text' htext => ?_
  refine alike_spanFrom hstart (fun span span' hspan => .some ?_) fun _ => Nat.le_refl _
  simp [Node.map, hspan, View.phrase_eq htext]

theorem partsRound_alike :
    C.Alike (n + 1) (fun _ => n + 1) (View.node C).list c.partsRound d.partsRound := by
  have hcons : ∀ node node' : Node Span, (View.node C).Agree node node' →
      C.Alike n (fun _ => n + 1) (View.node C).list (return node :: (← c.parts))
        (return node' :: (← d.parts)) := by
    intro node node' hnode
    exact h.parts.bind fun rest rest' hrest => .pure (.cons hnode hrest) (Nat.le_succ n)
  unfold Calls.partsRound
  refine environment?_alike.bind_found ?_ ?_
  · exact (caption?_alike h).bind_found (.pure .nil (Nat.le_refl _)) hcons
  · rintro ⟨name, start⟩ ⟨_, start'⟩ ⟨rfl, hstart⟩
    refine .ite _ ?_ (.throw hstart)
    exact (algorithmic_alike h hstart).bind hcons

theorem openAlgorithm_alike {start start' : Nat} (hstart : C.Meets start start') :
    C.Alike n (fun _ => n) (.node C) (c.openAlgorithm start) (d.openAlgorithm start') := by
  unfold Calls.openAlgorithm
  refine h.parts.bind fun children children' hchildren => ?_
  refine alike_spanFrom_bind hstart fun span span' hspan => ?_
  refine (alike_toClose _).bind_same fun _ => .pure ?_ (Nat.le_refl _)
  simp [Node.map, hspan, View.mapAll_eq hchildren]

theorem openEnvironment?_alike :
    C.Alike (n + 1) (spent (n + 1)) (View.node C).option c.openEnvironment?
      d.openEnvironment? := by
  have hsome : ∀ node node' : Node Span, (View.node C).Agree node node' →
      C.Alike n (spent (n + 1)) (View.node C).option (return some node) (return some node') :=
    fun node node' hnode => .pure (.some hnode) (Nat.le_refl n)
  unfold Calls.openEnvironment?
  refine environment?_alike.bind_found (.pure .none (Nat.le_refl _)) ?_
  rintro ⟨name, start⟩ ⟨_, start'⟩ ⟨rfl, hstart⟩
  refine .ite _ ?_ (.ite _ ?_ (.throw hstart))
  · exact (openAlgorithm_alike h hstart).bind hsome
  · exact (openAlgorithmic_alike h hstart).bind hsome

theorem environmentsRound_alike :
    C.Alike (n + 1) (fun _ => n + 1) (View.node C).list c.environmentsRound
      d.environmentsRound := by
  rw [Calls.environmentsRound_eq, Calls.environmentsRound_eq]
  refine (openEnvironment?_alike h).bind_found (.pure .nil (Nat.le_refl _)) ?_
  intro node node' hnode
  refine alike_closeBrace.bind_same fun _ => ?_
  exact h.environments.bind fun rest rest' hrest => .pure (.cons hnode hrest) (Nat.le_succ n)

/-- A document, if what is before the first symbol is taken to correspond. -/
theorem document_ends (hzero : C.Meets 0 0) {r r' : Reader} (hr : C.Rel r r')
    (hle : r.remaining ≤ n) :
    C.Ends (.node C) (fun _ _ => True) (c.document r) (d.document r') := by
  unfold Calls.document
  simp only [discard_eq, bind_assoc, pure_bind]
  refine (h.environments.ends hr hle).bind ?_ ?_
  · intro children children' s s' hchildren hs _
    refine (expect_ends .any hs fun _ _ _ _ => trivial).bind ?_ fun _ _ ht => ht
    rintro _ _ t t' _ ht _
    refine .ok ?_ ht trivial
    simp only [Node.map, C.span_eq ht hzero, View.mapAll_eq hchildren]
  · intro children s hs
    exact stays_bind (stays_expect _ _) (fun _ _ ht => ht) hs

end OnCalls

/-! ## Calls that last -/

/-- Calls that last for as many rounds as symbols remain are alike. -/
theorem Calls.Lasts.alike (hc : Lasts n c) (hd : Lasts n d) : CallsAlike C n c d := by
  induction n generalizing c d with
  | zero =>
      exact ⟨.idle .nil hc.items hd.items, .idle .nil hc.laterArms hd.laterArms,
        .idle .nil hc.statements hd.statements, .idle .nil hc.sections hd.sections,
        .idle .nil hc.parts hd.parts, .idle .nil hc.environments hd.environments⟩
  | succ n ih =>
      obtain ⟨⟨_, hitems, hci⟩, ⟨_, harms, hca⟩, ⟨_, hstatements, hcs⟩,
        ⟨_, _, hsections, hfirst, hcx⟩, ⟨_, hparts, hcp⟩, _, henvironments, hce⟩ := hc
      obtain ⟨⟨_, hitems', hdi⟩, ⟨_, harms', hda⟩, ⟨_, hstatements', hds⟩,
        ⟨_, _, hsections', hfirst', hdx⟩, ⟨_, hparts', hdp⟩, _, henvironments', hde⟩ := hd
      constructor
      · rw [hci, hdi]
        exact itemsRound_alike (ih hitems hitems')
      · rw [hca, hda]
        exact laterArmsRound_alike (ih harms harms')
      · rw [hcs, hds]
        exact statementsRound_alike (ih hstatements hstatements')
      · rw [hcx, hdx]
        exact sectionsRound_alike (ih hsections hsections')
          (statementsRound_alike (ih hfirst hfirst'))
      · rw [hcp, hdp]
        exact partsRound_alike (ih hparts hparts')
      · rw [hce, hde]
        exact environmentsRound_alike (ih henvironments henvironments')

/-- Calls under any bounds that suffice are alike. -/
theorem bounded_alike {bound bound' : Nat} (hbound : n ≤ bound) (hbound' : n ≤ bound') :
    CallsAlike C n (.bounded bound) (.bounded bound') :=
  (Calls.lasts_bounded hbound).alike (Calls.lasts_bounded hbound')

end AlgoBox.Grammar
