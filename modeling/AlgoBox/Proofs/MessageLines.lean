import AlgoBox.Proofs.EarliestFault
import AlgoBox.Proofs.JsonRoundTrip

/-!
# Messages on one line

What is told about a fault of a source is one line of text: the excerpt is flattened, and
what the grammar wants and what it found instead are written without line feeds, carriage
returns and tabs. The exception is the name of an environment, which is quoted as it
stands in the source, where it may run over several lines (`report_onLine_iff`).

`PlainFaults` is the fact about a computation on a reader that its faults are of this
kind; as in `Shrinks`, the instances follow the definitions of the productions.
-/

namespace AlgoBox

open AlgoBox.Symbol Grammar Reader Source

variable {β γ : Type}

/-! ## Texts on one line -/

/-- Line feeds, carriage returns and tabs. -/
def breaksLine (c : Char) : Bool := c = '\r' ∨ c = '\n' ∨ c = '\t'

/-- A text without line feeds, carriage returns and tabs. -/
def OnLine (s : String) : Prop := ∀ c ∈ s.toList, breaksLine c = false

instance (s : String) : Decidable (OnLine s) := List.decidableBAll (breaksLine · = false) s.toList

@[simp]
theorem onLine_append {s t : String} : OnLine (s ++ t) ↔ OnLine s ∧ OnLine t := by
  unfold OnLine
  rw [String.toList_append, List.forall_mem_append]

/-- A name between texts on one line. -/
theorem onLine_quoting (front back : String) (hfront : OnLine front) (hback : OnLine back)
    {name : String} : OnLine (front ++ name ++ back) ↔ OnLine name := by
  rw [onLine_append, onLine_append]
  exact ⟨fun h => h.1.2, fun h => ⟨⟨hfront, h⟩, hback⟩⟩

theorem onLine_flatten (s : List Char) : OnLine (String.ofList (flatten s)) := by
  unfold OnLine flatten
  rw [String.toList_ofList]
  intro c hc
  obtain ⟨d, -, rfl⟩ := List.mem_map.mp hc
  split
  · decide
  · rename_i hd
    exact decide_eq_false hd

theorem onLine_ofNat (n : Nat) : OnLine (toString (n : Int)) := by
  intro c hc
  rw [show (n : Int) = Int.ofNat n from rfl, Json.toList_ofNat] at hc
  have hdigit := Nat.isDigit_of_mem_toDigits (by decide) (by decide) hc
  refine decide_eq_false ?_
  rintro (rfl | rfl | rfl) <;> revert hdigit <;> decide

/-- The letters of a command word. -/
theorem onLine_of_letters {s : String} (h : ∀ c ∈ s.toList, isLetter c = true) : OnLine s := by
  intro c hc
  have hletter := h c hc
  refine decide_eq_false ?_
  rintro (rfl | rfl | rfl) <;> revert hletter <;> decide

/-! ## What a fault quotes -/

namespace Fault

/-- The name of an environment that the message of a fault quotes. -/
def Cause.quotedName? : Cause → Option String
  | unknownEnvironment name | misplacedEnvironment name => some name
  | wrongText (.only wanted) actual =>
    if wanted = algorithmName ∨ wanted = algorithmicName then actual else none
  | _ => none

/-- A fault that may be met among some symbols. The message is on one line, but for the name
that is quoted, and a name in place of another one is the symbol at the fault. -/
structure IsPlain (stream : List Symbol) (fault : Fault) : Prop where
  onLine : OnLine fault.cause.message ↔ ∀ name ∈ fault.cause.quotedName?, OnLine name
  quotes : fault.cause.IsUnexpected → ∀ name ∈ fault.cause.quotedName?,
    ∃ s ∈ stream, s.start = fault.offset ∧ s.token = .ordinary name

variable {stream : List Symbol} {offset : Nat}

theorem isPlain_unrecognizable : IsPlain stream ⟨.unrecognizable, offset⟩ where
  onLine := by
    have hmessage : OnLine "Unrecognizable symbol" := by decide
    exact iff_of_true hmessage nofun
  quotes := nofun

theorem isPlain_wrongKind (expected actual : Symbol.Kind) :
    IsPlain stream ⟨.wrongKind expected actual, offset⟩ where
  onLine := by
    have hname (kind : Symbol.Kind) : OnLine kind.name := by cases kind <;> decide
    have hfront := (onLine_quoting "Expected a symbol of type " " but received "
      (by decide) (by decide)).mpr (hname expected)
    exact iff_of_true (onLine_append.mpr ⟨hfront, hname actual⟩) nofun
  quotes := nofun

theorem isPlain_unknownEnvironment (name : String) :
    IsPlain stream ⟨.unknownEnvironment name, offset⟩ where
  onLine := (onLine_quoting "Unexpected environment `" "`" (by decide)
    (by decide)).trans (by simp [Cause.quotedName?])
  quotes := nofun

theorem isPlain_misplacedEnvironment (name : String) :
    IsPlain stream ⟨.misplacedEnvironment name, offset⟩ where
  onLine := (onLine_quoting "Unexpected environment `" "` inside algorithm" (by decide)
    (by decide)).trans (by simp [Cause.quotedName?])
  quotes := nofun

theorem onLine_wrongText {wanted actual : String} (hwanted : OnLine wanted) :
    OnLine (Cause.wrongText (.only wanted) (some actual)).message ↔ OnLine actual :=
  have hfront := (onLine_quoting "Expected `" "` but received `" (by decide)
    (by decide)).mpr hwanted
  onLine_quoting _ "`" hfront (by decide)

end Fault

/-! ## Where faults come from -/

namespace Reader

/-- A computation among some symbols ends in front of some of them or meets a fault that
may be met there. -/
def EndsPlainly (ending : Ending) (stream : List Symbol) : Outcome β → Prop
  | .ok _ r => ∃ ss, Ahead ending r ss ∧ ss ⊆ stream
  | .error fault _ => fault.IsPlain stream

/-- All faults of a computation on valid symbols are plain. -/
class PlainFaults (p : ReadM β) : Prop where
  ends : ∀ {ending stream r ss}, (∀ s ∈ stream, s.token.Valid) → Ahead ending r ss → ss ⊆ stream →
    EndsPlainly ending stream (p r)

instance PlainFaults.pure (b : β) : PlainFaults (pure b : ReadM β) where
  ends _ h hss := ⟨_, h, hss⟩

instance PlainFaults.get : PlainFaults (get : ReadM Reader) where
  ends _ h hss := ⟨_, h, hss⟩

theorem PlainFaults.throw {fault : Fault} (h : ∀ stream, fault.IsPlain stream) :
    PlainFaults (throw fault : ReadM β) where
  ends _ _ _ := h _

instance PlainFaults.consume : PlainFaults Reader.consume where
  ends := by
    intro ending stream r ss _ h hss
    obtain ⟨s, rest, rfl⟩ := h.exists_cons
    rcases h.consume with ⟨-, r', heq, ha⟩ | ⟨-, rfl, r', heq, ha⟩ | ⟨-, -, o, r', -, heq⟩
    · rw [heq]
      exact ⟨rest, ha, fun x hx => hss (List.mem_cons_of_mem _ hx)⟩
    · rw [heq]
      exact ⟨[s], ha, hss⟩
    · rw [heq]
      exact Fault.isPlain_unrecognizable

instance PlainFaults.bind (p : ReadM β) (f : β → ReadM γ) [hp : PlainFaults p]
    [hf : ∀ b, PlainFaults (f b)] : PlainFaults (p >>= f) where
  ends := by
    intro ending stream r ss hvalid h hss
    have hpr := hp.ends hvalid h hss
    show EndsPlainly ending stream (EStateM.bind p f r)
    unfold EStateM.bind
    cases heq : p r with
    | ok b r' =>
        rw [heq] at hpr
        obtain ⟨ss', h', hss'⟩ := hpr
        exact (hf b).ends hvalid h' hss'
    | error fault r' =>
        rw [heq] at hpr
        exact hpr

instance PlainFaults.ite (c : Prop) [Decidable c] (p q : ReadM β) [PlainFaults p]
    [PlainFaults q] : PlainFaults (if c then p else q) := by
  split <;> infer_instance

theorem PlainFaults.bind_option {p : ReadM (Option β)} {f : Option β → ReadM γ} [PlainFaults p]
    (hnone : PlainFaults (f none)) (hsome : ∀ b, PlainFaults (f (some b))) :
    PlainFaults (p >>= f) :=
  have (o : Option β) : PlainFaults (f o) := by
    cases o with
    | none => exact hnone
    | some b => exact hsome b
  inferInstance

instance PlainFaults.accept (kind : Kind) (wanted : Wanted) :
    PlainFaults (Reader.accept kind wanted) := by
  unfold Reader.accept
  infer_instance

/-- A symbol is expected whose text, if it is another one, makes a plain fault. -/
theorem PlainFaults.expect {kind : Kind} {wanted : Wanted}
    (h : ∀ {stream : List Symbol} {s}, s ∈ stream → s.kind = kind → s.token.Valid →
      s.text = s.token.text → wanted.admits s.text = false →
      Fault.IsPlain stream ⟨.wrongText wanted s.text, s.start⟩) :
    PlainFaults (Reader.expect kind wanted) where
  ends := by
    intro ending stream r ss hvalid hr hss
    obtain ⟨s, rest, rfl⟩ := hr.exists_cons
    have hs : s ∈ stream := hss List.mem_cons_self
    have hrun : Reader.expect kind wanted r =
        if s.kind ≠ kind then .error ⟨.wrongKind kind s.kind, s.start⟩ r
        else if !wanted.admits s.text then .error ⟨.wrongText wanted s.text, s.start⟩ r
        else Reader.consume r := by
      rw [← hr.current_eq]
      show (if r.current.kind ≠ kind then _ else _ : ReadM String) r = _
      split
      · rfl
      · split <;> rfl
    rw [hrun]
    split
    · exact Fault.isPlain_wrongKind kind s.kind
    · rename_i hkind
      split
      · rename_i hwanted
        exact h hs (not_not.mp hkind) (hvalid s hs) hr.text_eq (by simpa using hwanted)
      · exact PlainFaults.consume.ends hvalid hr hss

instance PlainFaults.expect_any (kind : Kind) : PlainFaults (Reader.expect kind .any) :=
  .expect nofun

end Reader

/-! ## Productions -/

namespace Grammar

instance (p : ReadM β) [PlainFaults p] : PlainFaults (discard p) := by
  rw [discard_eq]
  infer_instance

instance : PlainFaults here := by
  unfold here
  infer_instance

instance (start : Nat) : PlainFaults (spanFrom start) := by
  unfold spanFrom
  infer_instance

instance (text : String) : PlainFaults (word? text) := by
  unfold word?
  infer_instance

instance (texts : List String) : PlainFaults (wordOf? texts) := by
  unfold wordOf?
  infer_instance

instance : PlainFaults openBrace := by
  unfold openBrace
  infer_instance

instance : PlainFaults closeBrace := by
  unfold closeBrace
  infer_instance

instance : PlainFaults bracedName := by
  unfold bracedName
  infer_instance

/-- What stands behind one of some command words may depend on which one it is. -/
theorem plainFaults_wordOf_bind {texts : List String} {f : Option String → ReadM γ}
    (hnone : PlainFaults (f none)) (hsome : ∀ text ∈ texts, PlainFaults (f (some text))) :
    PlainFaults (wordOf? texts >>= f) := by
  constructor
  intro ending stream r ss hvalid h hss
  obtain ⟨s, rest, rfl⟩ := h.exists_cons
  have hrest : rest ⊆ stream := fun x hx => hss (List.mem_cons_of_mem _ hx)
  show EndsPlainly ending stream (EStateM.bind (accept .word (.oneOf texts)) f r)
  unfold EStateM.bind
  have hkind : Kind.word ≠ .endOfSource := by decide
  rcases h.accept (.oneOf texts) hkind with
    ⟨-, haccept⟩ | ⟨hfits, ⟨r', haccept, hr'⟩ | ⟨-, o, r', -, haccept⟩⟩
  · rw [haccept]
    exact hnone.ends hvalid h hss
  · obtain ⟨text, hmem, htoken⟩ := Token.fits_word_oneOf.mp hfits
    rw [haccept, htoken]
    exact (hsome text hmem).ends hvalid hr' hrest
  · rw [haccept]
    exact Fault.isPlain_unrecognizable

/-- Another command word in place of a closing one is letters only. -/
theorem plainFaults_closingWord {text : String} (htext : OnLine text)
    (hname : ¬(text = algorithmName ∨ text = algorithmicName)) :
    PlainFaults (closingWord text) := by
  have hexpect : PlainFaults (expect .word (.only text)) := by
    refine .expect fun {stream s} _ hkind hvalid hs _ => ?_
    have htoken : s.token = .word (s.text.getD "") := by
      unfold token
      rw [hkind]
    rw [htoken] at hvalid hs
    have hquoted : Fault.Cause.quotedName? (.wrongText (.only text) s.text) = none := if_neg hname
    constructor
    · rw [hquoted, hs]
      exact iff_of_true ((Fault.onLine_wrongText htext).mpr (onLine_of_letters hvalid.2)) nofun
    · rw [hquoted]
      nofun
  unfold closingWord
  infer_instance

/-- The name of another environment in place of a given one is quoted. -/
theorem plainFaults_expect_name {name : String}
    (hname : name = algorithmName ∨ name = algorithmicName) :
    PlainFaults (expect .ordinary (.only name)) := by
  refine .expect fun {stream s} hmem hkind _ hs _ => ?_
  have htoken : s.token = .ordinary (s.text.getD "") := by
    unfold token
    rw [hkind]
  have hquoted : Fault.Cause.quotedName? (.wrongText (.only name) s.text) = s.text := if_pos hname
  rw [htoken] at hs
  constructor
  · rw [hquoted, hs]
    have honLine : OnLine name := by
      rcases hname with rfl | rfl <;> decide
    show OnLine (Fault.Cause.wrongText (.only name) (some _)).message ↔ _
    rw [Fault.onLine_wrongText honLine]
    simp [Token.text]
  · rw [hquoted]
    intro _ actual hactual
    rw [Option.mem_def] at hactual
    exact ⟨s, hmem, rfl, by rw [htoken, hactual]; rfl⟩

/-! ### Phrases -/

instance (forms : List (Symbol.Kind × Wanted × (String → Leaf))) : PlainFaults (leafOf? forms) := by
  induction forms with
  | nil => exact .pure none
  | cons form rest ih =>
      unfold leafOf?
      exact .bind_option ih inferInstance

instance : PlainFaults leaf? := by
  unfold leaf?
  exact @PlainFaults.bind _ _ _ _ _ fun start => .bind_option inferInstance inferInstance

instance (bound : Nat) : PlainFaults (items bound) := by
  induction bound with
  | zero => exact .pure []
  | succ bound ih =>
      unfold items
      refine .bind_option ?_ inferInstance
      exact .bind_option inferInstance inferInstance

instance (bound : Nat) : PlainFaults (phrase bound) := by
  unfold phrase
  infer_instance

instance (bound : Nat) : PlainFaults (bracedPhrase bound) := by
  unfold bracedPhrase
  infer_instance

/-! ### Statements -/

instance (words : List String) (bound : Nat) : PlainFaults (command? words bound) := by
  unfold command?
  exact @PlainFaults.bind _ _ _ _ _ fun start => .bind_option inferInstance inferInstance

instance (bound : Nat) : PlainFaults (comment? bound) := by
  unfold comment?
  infer_instance

instance (bound : Nat) : PlainFaults (call? bound) := by
  unfold call?
  infer_instance

section Bodies

variable (bound : Nat) (body : ReadM (Option (Node Span))) [PlainFaults body]

instance (start : Nat) : PlainFaults (arm bound body start) := by
  unfold arm
  infer_instance

instance (read : Nat → ReadM (Branch Span)) [∀ start, PlainFaults (read start)] :
    PlainFaults (laterArms read bound) := by
  induction bound with
  | zero => exact .pure []
  | succ bound ih =>
      unfold laterArms
      infer_instance

instance : PlainFaults (conditional? bound body) := by
  have hclosing : PlainFaults (closingWord "ENDIF") :=
    plainFaults_closingWord (by decide) (by decide)
  unfold conditional?
  infer_instance

instance : PlainFaults (loop? bound body) := by
  have hwords : ∀ keyword ∈ loopWords, OnLine ("END" ++ keyword) ∧
      ¬("END" ++ keyword = algorithmName ∨ "END" ++ keyword = algorithmicName) := by
    decide
  unfold loop?
  refine @PlainFaults.bind _ _ _ _ _ fun start => plainFaults_wordOf_bind inferInstance ?_
  intro keyword hkeyword
  have := plainFaults_closingWord (hwords keyword hkeyword).1 (hwords keyword hkeyword).2
  infer_instance

instance : PlainFaults (function? bound body) := by
  have hwords : ∀ kind ∈ functionWords, OnLine ("END" ++ kind) ∧
      ¬("END" ++ kind = algorithmName ∨ "END" ++ kind = algorithmicName) := by
    decide
  unfold function?
  refine @PlainFaults.bind _ _ _ _ _ fun start => plainFaults_wordOf_bind inferInstance ?_
  intro kind hkind
  have := plainFaults_closingWord (hwords kind hkind).1 (hwords kind hkind).2
  infer_instance

instance (first second : ReadM (Option (Node Span))) [PlainFaults first] [PlainFaults second] :
    PlainFaults (orElse? first second) := by
  unfold orElse?
  exact .bind_option inferInstance inferInstance

instance : PlainFaults (statement? bound body) := by
  unfold statement?
  infer_instance

end Bodies

instance (read : ReadM (List (Node Span))) [PlainFaults read] : PlainFaults (blockOf? read) := by
  unfold blockOf?
  have (children : List (Node Span)) (start : Nat) : PlainFaults (match children with
      | [] => pure none
      | children => do return some (.block (← spanFrom start) children) :
        ReadM (Option (Node Span))) := by
    cases children <;> infer_instance
  exact @PlainFaults.bind _ _ _ _ _ fun start => @PlainFaults.bind _ _ _ _ _ fun children =>
    this children start

instance (bound : Nat) : PlainFaults (statements bound) := by
  induction bound with
  | zero => exact .pure []
  | succ bound ih =>
      unfold statements
      exact .bind_option inferInstance inferInstance

instance (bound : Nat) : PlainFaults (block? bound) := by
  unfold block?
  infer_instance

/-! ### Environments -/

instance : PlainFaults environment? := by
  unfold environment?
  infer_instance

theorem plainFaults_closeEnvironment {name : String}
    (hname : name = algorithmName ∨ name = algorithmicName) :
    PlainFaults (closeEnvironment name) := by
  have hclosing : PlainFaults (closingWord "end") :=
    plainFaults_closingWord (by decide) (by decide)
  have hexpect := plainFaults_expect_name hname
  unfold closeEnvironment
  infer_instance

instance (bound : Nat) : PlainFaults (sections bound) := by
  induction bound with
  | zero => exact .pure []
  | succ bound ih =>
      unfold sections
      exact .bind_option inferInstance inferInstance

instance (bound start : Nat) : PlainFaults (algorithmic bound start) := by
  have hclose := plainFaults_closeEnvironment (.inr rfl)
  unfold algorithmic
  infer_instance

instance (bound : Nat) : PlainFaults (caption? bound) := by
  unfold caption?
  infer_instance

instance (bound : Nat) : PlainFaults (parts bound) := by
  have hthrow (name : String) (start : Nat) :
      PlainFaults (throw ⟨.misplacedEnvironment name, start⟩ : ReadM (List (Node Span))) :=
    .throw fun _ => Fault.isPlain_misplacedEnvironment name
  induction bound with
  | zero => exact .pure []
  | succ bound ih =>
      unfold parts
      refine .bind_option ?_ inferInstance
      exact .bind_option inferInstance inferInstance

instance (bound start : Nat) : PlainFaults (algorithm bound start) := by
  have hclose := plainFaults_closeEnvironment (.inl rfl)
  unfold algorithm
  infer_instance

instance (bound : Nat) : PlainFaults (environments bound) := by
  have hthrow (name : String) (start : Nat) :
      PlainFaults (throw ⟨.unknownEnvironment name, start⟩ : ReadM (Node Span)) :=
    .throw fun _ => Fault.isPlain_unknownEnvironment name
  induction bound with
  | zero => exact .pure []
  | succ bound ih =>
      unfold environments
      exact .bind_option inferInstance fun (name, start) => inferInstance

instance (bound : Nat) : PlainFaults (document bound) := by
  unfold document
  infer_instance

end Grammar

/-! ## The report -/

/-- Apart from the message of the fault, a report is on one line. -/
theorem onLine_report (fault : Fault) (source : List Char) :
    OnLine (fault.report source).text ↔ OnLine fault.cause.message := by
  have hposition : OnLine " at position " := by decide
  have hopen : OnLine ": `" := by decide
  have hclose : OnLine "`" := by decide
  unfold Fault.report Report.make Report.text
  show OnLine (fault.cause.message ++ " at position " ++ toString (fault.offset : Int) ++ ": `" ++
    String.ofList (flatten _) ++ "`") ↔ _
  rw [onLine_append, onLine_append, onLine_append, onLine_append, onLine_append]
  constructor
  · rintro ⟨⟨⟨⟨⟨hmessage, -⟩, -⟩, -⟩, -⟩, -⟩
    exact hmessage
  · intro hmessage
    exact ⟨⟨⟨⟨⟨hmessage, hposition⟩, onLine_ofNat _⟩, hopen⟩, onLine_flatten _⟩, hclose⟩

/-- The faults that are met in a source are plain. -/
theorem isPlain_of_parse {source : String} {fault : Fault} (h : parse source = .error fault) :
    fault.IsPlain (scan source.toList).stream := by
  rcases parse_error_inv h with hsource | ⟨r, r', hr, hend⟩
  · obtain ⟨cause, offset⟩ := fault
    obtain ⟨rfl, -, -⟩ := ofSource_error hsource
    exact Fault.isPlain_unrecognizable
  · have hvalid : ∀ s ∈ (scan source.toList).stream, s.token.Valid := by
      intro s hs
      rcases List.mem_append.mp hs with hs | hs
      · exact (valid_of_mem_scanFrom 0 _ s hs).2
      · cases hending : (scan source.toList).ending with
        | complete length =>
            rw [hending] at hs
            obtain rfl := List.mem_singleton.mp hs
            trivial
        | unrecognized offset =>
            rw [hending] at hs
            cases hs
    have hdocument : PlainFaults (document r.remaining) := inferInstance
    have hends := hdocument.ends hvalid (ahead_scan hr) (List.Subset.refl _)
    rw [hend] at hends
    exact hends

/-- The report of a fault is on one line, unless the fault is about the name of an
environment that runs over several lines: one that is not allowed, behind the
`\begin` at the fault, or one at the fault itself that does not close the environment
it stands in. -/
theorem report_onLine_iff {source : String} {fault : Fault} (h : parse source = .error fault) :
    (OnLine (fault.report source.toList).text ↔
      ∀ name ∈ fault.cause.quotedName?, OnLine name) ∧
    ∀ name ∈ fault.cause.quotedName?,
      StandsAt source fault.offset (Token.opening name) ∨
        StandsAt source fault.offset [.ordinary name] := by
  have hplain := isPlain_of_parse h
  refine ⟨(onLine_report fault _).trans hplain.onLine, fun name hname => ?_⟩
  rcases parse_error_cases h with ⟨hcause, -, -⟩ | ⟨hcause, -, -⟩ | ⟨other, hother, hstands, -, -⟩
  · rw [hcause] at hname
    cases hname
  · obtain ⟨s, hs, hstart, htoken⟩ := hplain.quotes hcause name hname
    obtain ⟨before, after, hstream⟩ := List.append_of_mem hs
    refine .inr ⟨before, [s], after, ?_, by rw [List.map_singleton, htoken], by rw [← hstart]; rfl⟩
    rw [hstream, List.append_assoc]
    rfl
  · have hsame : other = name := by
      obtain ⟨cause, offset⟩ := fault
      cases cause with
      | unknownEnvironment | misplacedEnvironment =>
          obtain rfl := Option.some_inj.mp hname
          exact hother.symm
      | _ => exact hother.elim
    rw [← hsame]
    exact .inl hstands

/-- A name over two lines that closes nothing makes a report of two lines. -/
theorem report_onLine_closing_over_two_lines :
    ∃ fault : Fault, parse "\\begin{algorithm}\\end\x7balgo\nrithm\x7d" = .error fault ∧
      fault.cause.quotedName? = some "algo\nrithm" ∧
      ¬OnLine (fault.report "\\begin{algorithm}\\end\x7balgo\nrithm\x7d".toList).text := by
  have hparse : parse "\\begin{algorithm}\\end\x7balgo\nrithm\x7d" =
      .error ⟨.wrongText (.only "algorithm") (some "algo\nrithm"), 22⟩ :=
    parse_eq_error_iff.2 (by decide +kernel)
  refine ⟨_, hparse, by decide, ?_⟩
  rw [(report_onLine_iff hparse).1]
  intro h
  exact absurd (h "algo\nrithm" (by decide)) (by decide)

/-- Not every report is on one line. -/
theorem not_always_on_line :
    ¬∀ (source : String) (fault : Fault), parse source = .error fault →
      OnLine (fault.report source.toList).text := by
  intro h
  have hparse : parse "\\begin\x7ba\nb\x7d" = .error ⟨.unknownEnvironment "a\nb", 0⟩ :=
    parse_eq_error_iff.2 (by decide +kernel)
  have hmessage := (onLine_report _ _).mp (h _ _ hparse)
  exact absurd hmessage (by decide)

end AlgoBox
