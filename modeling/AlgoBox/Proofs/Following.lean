import AlgoBox.Proofs.Relating

/-!
# Rendering with values that are no texts

Two options are written into the output and are not looked at before: what stands in
front of comments and behind line numbers. A value that counts as true and is no text
(`Value.IsForeign`) is found only where it would be written.

Where that is can be told from the output that the options give with empty texts in
place of such values (`Options.tamed`): rendering follows that output up to the first
fragment that would hold one (`Follows`). This needs nothing to be known of the tree, only
that every step does so (`Follows.relates`); that the tamed output exists is what being
read is good for (`Node.Normal.rendering_tamed`).
-/

namespace AlgoBox

open Html Page

variable {α β γ : Type}

/-! ## Foreign values -/

/-- The value counts as true and is no text, so it cannot be written into an output. -/
def Value.IsForeign (value : Value) : Prop := value.isTrue = true ∧ ∀ s, value ≠ .text s

/-- The value if it is a text, and the empty text otherwise. -/
def Value.tamed : Value → Value
  | .text s => .text s
  | _ => .text ""

/-- The options with empty texts in place of values that are no texts. -/
def Options.tamed (options : Options) : Options :=
  { options with
    commentSymbol := options.commentSymbol.tamed
    lineNumberPunc := options.lineNumberPunc.tamed }

theorem Value.exists_tamed (value : Value) : ∃ s, value.tamed = .text s := by
  cases value <;> exact ⟨_, rfl⟩

instance (options : Options) : options.tamed.Textual :=
  ⟨options.commentSymbol.exists_tamed, options.lineNumberPunc.exists_tamed⟩

section Options

variable (options : Options)

@[simp] theorem Options.tamed_lineNumber : options.tamed.lineNumber = options.lineNumber := rfl

@[simp] theorem Options.tamed_lineNumberPunc :
    options.tamed.lineNumberPunc = options.lineNumberPunc.tamed := rfl

end Options

namespace Html

variable {value : Value}

theorem escapeValue_of_isForeign (h : value.IsForeign) :
    escapeValue value = throw (.notText value) := by
  obtain ⟨htrue, htext⟩ := h
  unfold escapeValue
  rw [if_pos htrue]
  cases value with
  | text s => exact absurd rfl (htext s)
  | _ => rfl

/-- What is not foreign is a text or gives nothing, like the empty text. -/
theorem escapeValue_tamed (h : ¬value.IsForeign) : escapeValue value = escapeValue value.tamed := by
  cases value with
  | text s => rfl
  | _ =>
      unfold escapeValue
      rw [if_neg fun htrue => h ⟨htrue, nofun⟩]
      rfl

theorem exists_escapeValue_tamed (value : Value) :
    ∃ markup, escapeValue value.tamed = pure markup := by
  obtain ⟨s, hs⟩ := value.exists_tamed
  rw [hs]
  unfold escapeValue
  split
  · exact ⟨_, rfl⟩
  · exact ⟨_, rfl⟩

/-- The fragment would hold a foreign value. -/
def Fragment.HoldsForeign (options : Options) : Fragment → Prop
  | .openSpan .comment => options.commentSymbol.IsForeign
  | .lineNumber .. => options.lineNumberPunc.IsForeign
  | _ => False

/-! ## Following an output -/

/-- The first computation fails at a foreign value among the options on the page. -/
def FailsForeign (options : Options) (p : RenderM β) (page : Page) : Prop :=
  ∃ value page', p page = .error (.notText value) page' ∧ value.IsForeign ∧
    (value = options.commentSymbol ∨ value = options.lineNumberPunc)

/-- Where the second computation comes to its end, it adds fragments to the page. If
none of them would hold a foreign value, the first computation does the same, and
otherwise it fails at a foreign value. -/
class Follows (options : Options) (p q : RenderM β) : Prop where
  follows : ∀ {page b page'}, q page = .ok b page' →
    ∃ new : List Fragment, page'.fragments.toList = page.fragments.toList ++ new ∧
      ((∀ f ∈ new, ¬f.HoldsForeign options) ∧ p page = .ok b page' ∨
        (∃ f ∈ new, f.HoldsForeign options) ∧ FailsForeign options p page)

namespace Follows

variable {options : Options} {p q : RenderM β}

/-- What adds no fragment follows itself. -/
theorem quiet (h : ∀ page b page', p page = .ok b page' → page'.fragments = page.fragments) :
    Follows options p p where
  follows hp := by
    refine ⟨[], ?_, .inl ⟨nofun, hp⟩⟩
    rw [h _ _ _ hp, List.append_nil]

instance pure (b : β) : Follows options (pure b) (pure b) := quiet (by rintro _ _ _ ⟨⟩; rfl)

instance get : Follows options get get := quiet (by rintro _ _ _ ⟨⟩; rfl)

theorem modify {f : Page → Page} (h : ∀ page, (f page).fragments = page.fragments) :
    Follows options (modify f) (modify f) :=
  quiet (by rintro page _ _ ⟨⟩; exact h page)

instance throw (fault : RenderFault) : Follows options (throw fault : RenderM β) (throw fault) where
  follows h := by cases h

instance bind {f g : β → RenderM γ} [hp : Follows options p q]
    [hf : ∀ b, Follows options (f b) (g b)] : Follows options (p >>= f) (q >>= g) where
  follows {page c page''} h := by
    change EStateM.bind q g page = _ at h
    unfold EStateM.bind at h
    cases hq : q page with
    | error fault page' =>
        rw [hq] at h
        cases h
    | ok b page' =>
        rw [hq] at h
        obtain ⟨new, hnew, hp⟩ := hp.follows hq
        obtain ⟨new', hnew', hf⟩ := (hf b).follows h
        refine ⟨new ++ new', by rw [hnew', hnew, List.append_assoc], ?_⟩
        rcases hp with ⟨hquiet, hp⟩ | ⟨⟨f, hmem, hforeign⟩, hp⟩
        · have hbind : EStateM.bind p f page = f b page' := by
            unfold EStateM.bind
            rw [hp]
          rcases hf with ⟨hquiet', hf⟩ | ⟨⟨f', hmem, hforeign⟩, value, last, hf, hvalue⟩
          · refine .inl ⟨List.forall_mem_append.2 ⟨hquiet, hquiet'⟩, hbind.trans hf⟩
          · refine .inr ⟨⟨f', List.mem_append_right _ hmem, hforeign⟩, ?_⟩
            exact ⟨value, last, hbind.trans hf, hvalue⟩
        · obtain ⟨value, last, hp, hvalue⟩ := hp
          refine .inr ⟨⟨f, List.mem_append_left _ hmem, hforeign⟩, value, last, ?_, hvalue⟩
          show EStateM.bind p _ page = _
          unfold EStateM.bind
          rw [hp]

instance ite (c : Prop) [Decidable c] {p' q' : RenderM β} [hp : Follows options p q]
    [hp' : Follows options p' q'] :
    Follows options (if c then p else p') (if c then q else q') := by
  split
  · exact hp
  · exact hp'

/-- `bind` with its premises as arguments. -/
theorem before {f g : β → RenderM γ} (hp : Follows options p q)
    (hf : ∀ b, Follows options (f b) (g b)) : Follows options (p >>= f) (q >>= g) := bind

theorem emit {f : Fragment} (h : ¬f.HoldsForeign options) :
    Follows options (emit f) (emit f) where
  follows {page b page'} hrun := by
    refine ⟨[f], ?_, .inl ⟨List.forall_mem_singleton.2 h, hrun⟩⟩
    cases hrun
    exact Array.toList_push

instance (text : String) : Follows options (holdText text) (holdText text) := modify fun _ => rfl

instance : Follows options releaseText releaseText := by
  unfold releaseText
  refine before inferInstance fun page => ?_
  split
  · exact before (emit id) fun _ => modify fun _ => rfl
  · infer_instance

theorem write {f : Fragment} (h : ¬f.HoldsForeign options) :
    Follows options (write f) (write f) :=
  before inferInstance fun _ => emit h

instance (word : String) : Follows options (writeKeyword word) (writeKeyword word) := write id

instance : Follows options closeLine closeLine := by
  unfold closeLine
  refine before inferInstance fun page => ?_
  split
  · exact before inferInstance fun _ => before (emit id) fun _ => before (emit id) fun _ =>
      modify fun _ => rfl
  · infer_instance

instance (div : Div) : Follows options (openDiv div) (openDiv div) := emit id

instance : Follows options closeDiv closeDiv := before inferInstance fun _ => emit id

instance : Follows options (openBlock options) (openBlock options.tamed) :=
  before inferInstance fun _ => before (emit id) fun _ => modify fun _ => rfl

instance : Follows options closeBlock closeBlock :=
  before inferInstance fun _ => modify fun _ => rfl

instance : Follows options countCaption countCaption := modify fun _ => rfl

instance : Follows options resetLineCount resetLineCount := modify fun _ => rfl

/-- A line number holds what follows it. -/
instance : Follows options (numberLine options) (numberLine options.tamed) where
  follows {page b page'} h := by
    obtain ⟨punc, hpunc⟩ := exists_escapeValue_tamed options.lineNumberPunc
    have hnumber : numberLine options.tamed page = .ok () { page with
        fragments := page.fragments.push (.lineNumber (Em.format
          (lineNumberOffset options.indent.toBinary64 page.depth)) page.lineCount punc) } := by
      unfold numberLine
      rw [Options.tamed_lineNumberPunc, hpunc]
      rfl
    rw [hnumber] at h
    cases h
    refine ⟨_, Array.toList_push, ?_⟩
    by_cases hforeign : options.lineNumberPunc.IsForeign
    · refine .inr ⟨⟨_, List.mem_singleton_self _, hforeign⟩, _, page, ?_, hforeign, .inr rfl⟩
      unfold numberLine
      rw [escapeValue_of_isForeign hforeign]
      rfl
    · refine .inl ⟨List.forall_mem_singleton.2 hforeign, ?_⟩
      rw [← hnumber]
      unfold numberLine
      rw [escapeValue_tamed hforeign]
      rfl

instance : Follows options (openLine options) (openLine options.tamed) := by
  unfold openLine
  dsimp only
  refine before inferInstance fun _ => before (modify fun _ => rfl) fun _ =>
    before inferInstance fun page => ?_
  have hcontent : Follows options (Page.emit (.openSpan .content))
      (Page.emit (.openSpan .content)) := emit id
  split
  · rw [Options.tamed_lineNumber]
    exact before (modify fun _ => rfl) fun _ => before (emit id) fun _ => inferInstance
  · exact before (emit id) fun _ => hcontent

instance : Follows options (joinLine options) (joinLine options.tamed) := by
  unfold joinLine
  infer_instance

/-- A comment holds its symbol. -/
theorem comment {words words' : RenderM Unit} (hwords : Follows options words words') :
    Follows options
      (do
        Page.write (.openSpan .comment)
        holdText ((← escapeValue options.commentSymbol) ++ " ")
        words
        Page.write .closeSpan)
      (do
        Page.write (.openSpan .comment)
        holdText ((← escapeValue options.commentSymbol.tamed) ++ " ")
        words'
        Page.write .closeSpan) := by
  have hrest : ∀ symbol : String, Follows options
      (do holdText (symbol ++ " "); words; Page.write .closeSpan)
      (do holdText (symbol ++ " "); words'; Page.write .closeSpan) :=
    fun symbol => before inferInstance fun _ => before hwords fun _ => write id
  unfold Page.write
  simp only [bind_assoc]
  refine before inferInstance fun _ => ?_
  obtain ⟨symbol, hsymbol⟩ := exists_escapeValue_tamed options.commentSymbol
  by_cases hforeign : options.commentSymbol.IsForeign
  · rw [hsymbol, escapeValue_of_isForeign hforeign]
    refine ⟨fun {page b page'} h => ?_⟩
    have hwritten : (do holdText (symbol ++ " "); words'; Page.write .closeSpan : RenderM Unit)
        { page with fragments := page.fragments.push (.openSpan .comment) } = .ok b page' := h
    obtain ⟨new, hnew, -⟩ := (hrest symbol).follows hwritten
    rw [Array.toList_push, List.append_assoc] at hnew
    exact ⟨_, hnew, .inr ⟨⟨_, List.mem_cons_self, hforeign⟩, _, _, rfl, hforeign, .inl rfl⟩⟩
  · rw [escapeValue_tamed hforeign, hsymbol]
    exact before (emit hforeign) fun _ => hrest symbol

end Follows

end Html

/-! ## Trees -/

section Trees

variable {setup : Setup}

/-- The setup with empty texts in place of values that are no texts. -/
def Html.Setup.tamed (setup : Setup) : Setup := { setup with options := setup.options.tamed }

@[simp] theorem Html.Setup.tamed_options (setup : Setup) :
    setup.tamed.options = setup.options.tamed := rfl

/-- The line of a caption is opened, filled and closed. -/
theorem Html.Follows.captionLine {text text' : RenderM Unit}
    (htext : Follows setup.options text text') :
    Follows setup.options (captionLine setup text) (captionLine setup.tamed text') := by
  unfold Html.captionLine
  rw [Setup.tamed_options]
  infer_instance

/-- No step but the two that write an option sees the difference. -/
theorem Html.Follows.relates (setup : Setup) :
    Relates setup setup.tamed (Follows setup.options) where
  lineNumber := rfl
  pure := .pure
  throw := .throw
  bind := .before
  holdText _ := inferInstance
  releaseText := inferInstance
  writeKeyword _ := inferInstance
  functionName _ := .write id
  math _ := .write id
  openSpan {span} hspan := by
    refine .write fun hforeign => ?_
    cases span with
    | comment => exact hspan rfl
    | _ => exact hforeign
  closeSpan := .emit id
  comment := .comment
  openLine := inferInstanceAs (Follows _ _ (openLine setup.options.tamed))
  joinLine := inferInstanceAs (Follows _ _ (joinLine setup.options.tamed))
  captionLine := .captionLine
  openDiv _ := inferInstance
  closeDiv := inferInstance
  openBlock := inferInstanceAs (Follows _ _ (openBlock setup.options.tamed))
  closeBlock := inferInstance
  countCaption := inferInstance
  resetLineCount := inferInstance

end Trees

/-- A tree that has been read is rendered as with the tamed options if no foreign value
would be written, and otherwise rendering fails at one. -/
theorem Node.Normal.rendering_tamed {tree : Node α} (h : tree.Normal) (setup : Setup) :
    (∀ f ∈ (tree.rendering setup.tamed).page.fragments.toList, ¬f.HoldsForeign setup.options) ∧
      tree.rendering setup = tree.rendering setup.tamed ∨
    (∃ f ∈ (tree.rendering setup.tamed).page.fragments.toList, f.HoldsForeign setup.options) ∧
      ∃ value, (tree.rendering setup).fault = some (.notText value) ∧ value.IsForeign ∧
        (value = setup.options.commentSymbol ∨ value = setup.options.lineNumberPunc) := by
  have : setup.tamed.options.Textual := inferInstanceAs setup.options.tamed.Textual
  obtain ⟨⟨⟩, page, hpage⟩ := (h.completes setup.tamed).completes {}
  obtain ⟨new, hnew, hcases⟩ := (tree.related (Follows.relates setup)).follows hpage
  obtain rfl : page.fragments.toList = new := hnew
  unfold Node.rendering
  rw [hpage]
  rcases hcases with ⟨hquiet, hrun⟩ | ⟨hforeign, value, page', hrun, hvalue⟩
  · rw [hrun]
    exact .inl ⟨hquiet, rfl⟩
  · rw [hrun]
    exact .inr ⟨hforeign, value, rfl, hvalue⟩

end AlgoBox
