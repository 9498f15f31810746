import AlgoBox.Proofs.Contents
import AlgoBox.Proofs.Relating

/-!
# Turning formulas into markup

Formulas are turned into markup one by one, where they are displayed. What turns them into
markup makes no difference to anything else on a page: with another typesetter the page is
the same but for the markup of its formulas (`Page.typeset`). This holds of every step of
the rendering (`Retypesets`) and so, with nothing known of the tree, of all of it
(`Node.rendering_typeset`), also where it ends at a fault.

Which formulas are on the page can be told from the tree: those of the phrases that are
displayed, from left to right (`Document.formulas_rendering`).
-/

namespace AlgoBox

open Html Page Grammar

variable {α β γ : Type}

/-! ## Pages with another typesetter -/

namespace Html

/-- The fragment with its formula turned into markup by a function. -/
def Fragment.typeset (f : String → String) : Fragment → Fragment
  | .math body _ => .math body (f body)
  | fragment => fragment

/-- The page with its formulas turned into markup by a function. -/
def Page.typeset (f : String → String) (page : Page) : Page :=
  { page with fragments := page.fragments.map (Fragment.typeset f) }

section Fields

variable (f : String → String) (page : Page)

@[simp] theorem Page.depth_typeset : (page.typeset f).depth = page.depth := rfl

@[simp] theorem Page.lineOpen_typeset : (page.typeset f).lineOpen = page.lineOpen := rfl

@[simp] theorem Page.pending_typeset : (page.typeset f).pending = page.pending := rfl

@[simp] theorem Page.lineCount_typeset : (page.typeset f).lineCount = page.lineCount := rfl

@[simp] theorem Page.captionCount_typeset : (page.typeset f).captionCount = page.captionCount := rfl

@[simp] theorem Page.toList_fragments_typeset :
    (page.typeset f).fragments.toList = page.fragments.toList.map (Fragment.typeset f) :=
  Array.toList_map

end Fields

/-- The outcome of a computation with the formulas on the page turned into markup by a
function. -/
def typesetResult (f : String → String) :
    EStateM.Result RenderFault Page β → EStateM.Result RenderFault Page β
  | .ok b page => .ok b (page.typeset f)
  | .error fault page => .error fault (page.typeset f)

/-- The first computation does with formulas turned into markup by a function what the
second one does, whatever it turns them into. -/
class Retypesets (f : String → String) (p q : RenderM β) : Prop where
  run_typeset : ∀ page, p (page.typeset f) = typesetResult f (q page)

namespace Retypesets

variable {f : String → String} {p q : RenderM β}

instance pure (b : β) : Retypesets f (pure b) (pure b) := ⟨fun _ => rfl⟩

instance throw (fault : RenderFault) : Retypesets f (throw fault : RenderM β) (throw fault) :=
  ⟨fun _ => rfl⟩

theorem modify {change : Page → Page}
    (h : ∀ page, change (page.typeset f) = (change page).typeset f) :
    Retypesets f (modify change) (modify change) :=
  ⟨fun page => congrArg (EStateM.Result.ok ()) (h page)⟩

instance bind {k k' : β → RenderM γ} [hp : Retypesets f p q]
    [hk : ∀ b, Retypesets f (k b) (k' b)] : Retypesets f (p >>= k) (q >>= k') where
  run_typeset page := by
    show EStateM.bind p k _ = typesetResult f (EStateM.bind q k' page)
    unfold EStateM.bind
    rw [hp.run_typeset]
    -- both computations fail here or neither does
    cases q page with
    | ok b page' => exact (hk b).run_typeset page'
    | error => rfl

/-- What follows may look at the page, formulas included. -/
theorem get_bind {k k' : Page → RenderM γ}
    (hk : ∀ page, Retypesets f (k (page.typeset f)) (k' page)) :
    Retypesets f (get >>= k) (get >>= k') :=
  ⟨fun page => (hk page).run_typeset page⟩

instance ite (c : Prop) [Decidable c] {p' q' : RenderM β} [hp : Retypesets f p q]
    [hp' : Retypesets f p' q'] :
    Retypesets f (if c then p else p') (if c then q else q') := by
  split
  · exact hp
  · exact hp'

/-- `bind` with its premises as arguments. -/
theorem before {k k' : β → RenderM γ} (hp : Retypesets f p q)
    (hk : ∀ b, Retypesets f (k b) (k' b)) : Retypesets f (p >>= k) (q >>= k') := bind

theorem emit {fragment fragment' : Fragment} (h : fragment = fragment'.typeset f) :
    Retypesets f (emit fragment) (emit fragment') where
  run_typeset page := by
    have hpush : (page.fragments.map (Fragment.typeset f)).push fragment =
        (page.fragments.push fragment').map (Fragment.typeset f) := by
      rw [Array.map_push, h]
    exact congrArg (fun fragments => EStateM.Result.ok () { page with fragments }) hpush

instance (text : String) : Retypesets f (holdText text) (holdText text) := modify fun _ => rfl

instance : Retypesets f releaseText releaseText := by
  unfold releaseText
  refine get_bind fun page => ?_
  rw [Page.pending_typeset]
  split
  · exact before (emit rfl) fun _ => modify fun _ => rfl
  · infer_instance

theorem write {fragment fragment' : Fragment} (h : fragment = fragment'.typeset f) :
    Retypesets f (write fragment) (write fragment') :=
  before inferInstance fun _ => emit h

instance (word : String) : Retypesets f (writeKeyword word) (writeKeyword word) := write rfl

instance : Retypesets f closeLine closeLine := by
  unfold closeLine
  refine get_bind fun page => ?_
  rw [Page.lineOpen_typeset]
  split
  · exact before inferInstance fun _ => before (emit rfl) fun _ => before (emit rfl) fun _ =>
      modify fun _ => rfl
  · infer_instance

instance (div : Div) : Retypesets f (openDiv div) (openDiv div) := emit rfl

instance : Retypesets f closeDiv closeDiv := before inferInstance fun _ => emit rfl

instance (options : Options) : Retypesets f (openBlock options) (openBlock options) :=
  before inferInstance fun _ => before (emit rfl) fun _ => modify fun _ => rfl

instance : Retypesets f closeBlock closeBlock :=
  before inferInstance fun _ => modify fun _ => rfl

instance : Retypesets f countCaption countCaption := modify fun _ => rfl

instance : Retypesets f resetLineCount resetLineCount := modify fun _ => rfl

instance (value : Value) : Retypesets f (escapeValue value) (escapeValue value) := by
  unfold escapeValue
  split
  · split
    · infer_instance
    · infer_instance
  · infer_instance

instance (options : Options) : Retypesets f (numberLine options) (numberLine options) := by
  unfold numberLine
  refine get_bind fun page => ?_
  rw [Page.depth_typeset, Page.lineCount_typeset]
  exact before inferInstance fun _ => emit rfl

instance (options : Options) : Retypesets f (openLine options) (openLine options) := by
  unfold openLine
  dsimp only
  refine before inferInstance fun _ => before (modify fun _ => rfl) fun _ =>
    get_bind fun page => ?_
  have hcontent : Retypesets f (Page.emit (.openSpan .content)) (Page.emit (.openSpan .content)) :=
    emit rfl
  rw [Page.depth_typeset]
  split
  · exact before (modify fun _ => rfl) fun _ => before (emit rfl) fun _ => inferInstance
  · exact before (emit rfl) fun _ => hcontent

instance (options : Options) : Retypesets f (joinLine options) (joinLine options) := by
  unfold joinLine
  refine get_bind fun page => ?_
  rw [Page.lineOpen_typeset]
  infer_instance

theorem captionLine {setup setup' : Setup} (h : setup.options = setup'.options)
    {text text' : RenderM Unit} (htext : Retypesets f text text') :
    Retypesets f (captionLine setup text) (captionLine setup' text') := by
  unfold Html.captionLine
  rw [h]
  refine before inferInstance fun _ => get_bind fun page => ?_
  rw [Page.captionCount_typeset]
  infer_instance

end Retypesets

end Html

/-! ## Trees -/

section Trees

/-- Only what turns formulas into markup differs. -/
theorem Html.Retypesets.relates (options : Options) (f g : String → String) :
    Relates ⟨options, f⟩ ⟨options, g⟩ (Retypesets f) where
  lineNumber := rfl
  pure := .pure
  throw := .throw
  bind := .before
  holdText _ := inferInstance
  releaseText := inferInstance
  writeKeyword _ := inferInstance
  functionName _ := .write rfl
  math _ := .write rfl
  openSpan _ := .write rfl
  closeSpan := .emit rfl
  comment hwords := .before (.write rfl) fun _ => .before inferInstance fun _ =>
    .before inferInstance fun _ => .before hwords fun _ => .write rfl
  openLine := inferInstance
  joinLine := inferInstance
  captionLine htext := .captionLine rfl htext
  openDiv _ := inferInstance
  closeDiv := inferInstance
  openBlock := inferInstance
  closeBlock := inferInstance
  countCaption := inferInstance
  resetLineCount := inferInstance

/-- The rendering with its formulas turned into markup by a function. -/
def Html.Rendering.typeset (f : String → String) (r : Rendering) : Rendering :=
  ⟨r.page.typeset f, r.fault⟩

/-- A tree is rendered as with any other typesetter, but for the markup of its formulas. -/
theorem Node.rendering_typeset (options : Options) (f g : String → String) (tree : Node α) :
    tree.rendering ⟨options, f⟩ = (tree.rendering ⟨options, g⟩).typeset f := by
  have hempty : ({} : Page).typeset f = {} := by simp [Page.typeset]
  have htree : tree.render ⟨options, f⟩ (({} : Page).typeset f) =
      typesetResult f (tree.render ⟨options, g⟩ {}) :=
    (tree.related (Retypesets.relates options f g)).run_typeset {}
  rw [hempty] at htree
  unfold Node.rendering
  rw [htree]
  cases tree.render ⟨options, g⟩ {} <;> rfl

end Trees

/-! ## The formulas of a document -/

/-- The formula that a leaf is. -/
def Leaf.formula? : Leaf → Option String
  | .math body => some body
  | _ => none

/-- The formulas that are displayed of a phrase. -/
def Phrase.formulas (words : Phrase α) : List String :=
  (words.styled []).filterMap fun styled => styled.leaf.formula?

/-- The formulas that are displayed of a document, in the order of the output. -/
def Node.displayedFormulas (document : Node α) : List String :=
  document.displayedWords.flatMap Phrase.formulas

theorem Html.readsContent_formula? : ReadsContent Fragment.formula? := by
  intro f hf
  cases f with
  | math => exact absurd trivial hf
  | _ => rfl

section Formulas

variable (setup : Setup)

theorem Leaf.formulas_inlines (item : Leaf) :
    (Inline.fragmentsAll (item.inlines setup)).filterMap Fragment.formula? =
      item.formula?.toList := by
  cases item <;> rfl

mutual

theorem Phrase.formulas_inline : ∀ (words : Phrase α) (switches : List Html.Span),
    (words.inline setup).fragments.filterMap Fragment.formula? =
      (words.styled switches).filterMap fun styled => styled.leaf.formula?
  | .mk _ items, switches =>
    (Inline.filterMap_stretch readsContent_formula? _ _).trans
      (Node.formulas_inlines items switches)

theorem Node.formulas_inlines : ∀ (items : List (Node α)) (switches : List Html.Span),
    (Inline.fragmentsAll (Node.inlines setup items)).filterMap Fragment.formula? =
      (Node.styled switches items).filterMap fun styled => styled.leaf.formula?
  | [], _ => rfl
  | .leaf _ item :: rest, switches => by
    rw [Node.inlines, Node.styled]
    cases item.switch? with
    | some switch =>
        have hrest := Node.formulas_inlines rest (switches ++ [switch])
        rw [Inline.fragmentsAll_singleton, Inline.filterMap_stretch readsContent_formula?]
        exact hrest
    | none =>
        have hrest := Node.formulas_inlines rest switches
        dsimp only
        rw [Inline.fragmentsAll_append, List.filterMap_append, hrest, Leaf.formulas_inlines,
          List.filterMap_cons]
        cases item.formula? <;> rfl
  | .text words :: rest, switches => by
    have hwords := Phrase.formulas_inline words switches
    have hrest := Node.formulas_inlines rest switches
    rw [Node.inlines, Inline.fragmentsAll, List.filterMap_append, hwords, hrest, Node.styled,
      List.filterMap_append]
  | .bare _ :: rest, switches | .root .. :: rest, switches | .algorithm .. :: rest, switches
  | .algorithmic .. :: rest, switches | .block .. :: rest, switches
  | .caption .. :: rest, switches | .comment .. :: rest, switches
  | .command .. :: rest, switches | .call .. :: rest, switches | .branch _ :: rest, switches
  | .conditional .. :: rest, switches | .loop .. :: rest, switches
  | .function .. :: rest, switches => Node.formulas_inlines rest switches

end

variable {setup} {form : Form}

/-- Labels hold no formulas. -/
theorem Html.HoldsWords.formulas {label : String → Prop} {content : List Inline}
    {words : List (Phrase α)} (h : HoldsWords form setup label content words) :
    (Inline.fragmentsAll content).filterMap Fragment.formula? = words.flatMap Phrase.formulas := by
  induction h with
  | nil => rfl
  | keyword _ _ ih => exact ih
  | functionName _ ih => exact ih
  | text _ ih => exact ih
  | phrase _ _ ih =>
      rw [Inline.fragmentsAll, List.filterMap_append, Phrase.formulas_inline setup _ [], ih,
        List.flatMap_cons]
      rfl
  | comment _ _ hinner ih =>
      rw [Inline.fragmentsAll, List.filterMap_append,
        Inline.filterMap_stretch readsContent_formula?, hinner, ih, List.flatMap_append]

/-- The formulas on the page of a document are those that are displayed of it. -/
theorem Document.formulas_rendering {tree : Node α} (h : Document form tree)
    (hfault : (tree.rendering setup).fault = none) :
    (tree.rendering setup).formulas = tree.displayedFormulas := by
  have hwords := (h.holdsWords setup).formulas
  have hboxes := Box.filterMap_fragments readsContent_formula?
    (.container .document (tree.layout setup))
  unfold Rendering.formulas
  rw [h.rendering_fragments setup hfault, ← Box.merged_fragments, filterMap_merged fun _ => rfl]
  exact hboxes.trans hwords

end Formulas

/-! ## Sources -/

/-- Every formula that is displayed is turned into markup once, where it is displayed, and
no other formula is. With another typesetter the output is the same but for the markup of
the formulas; empty markup leaves no line. -/
theorem formulas_typeset_in_place {source : String} {tree : Node Source.Location}
    {options : Options} (hparse : parse source = .ok tree)
    (hsymbol : ∃ s, options.commentSymbol = .text s)
    (hpunc : ∃ s, options.lineNumberPunc = .text s) (level : Log.Level) (f : String → String)
    (other : Typesetter) :
    let fragments := (tree.rendering ⟨options, other.getD delimited⟩).page.fragments.toList
    (renderTree level options (some f) tree).formulas = tree.displayedFormulas ∧
      fragments.filterMap Fragment.formula? = tree.displayedFormulas ∧
      fragments.map (Fragment.typeset (other.getD delimited)) = fragments ∧
      (renderTree level options other tree).result =
        .ok ("\n".intercalate ((fragments.map Fragment.markup).filter (· ≠ ""))) ∧
      (renderTree level options (some f) tree).result = .ok ("\n".intercalate
        (((fragments.map (Fragment.typeset f)).map Fragment.markup).filter (· ≠ ""))) := by
  intro fragments
  have hnormal := normal_of_parse hparse
  have : options.Textual := ⟨hsymbol, hpunc⟩
  have hfault : ∀ typeset, (tree.rendering ⟨options, typeset⟩).fault = none := fun typeset =>
    have : (Setup.mk options typeset).options.Textual := this
    hnormal.fault_eq_none _
  have hfragments : ∀ typeset,
      (tree.rendering ⟨options, typeset⟩).page.fragments.toList =
        fragments.map (Fragment.typeset typeset) := by
    intro typeset
    rw [tree.rendering_typeset options typeset (other.getD delimited)]
    exact Page.toList_fragments_typeset ..
  have hmarkup : ∀ typeset, (tree.rendering ⟨options, typeset⟩).markup =
      .ok (Fragment.join (tree.rendering ⟨options, typeset⟩).page.fragments.toList) := by
    intro typeset
    unfold Rendering.markup
    rw [hfault]
  obtain ⟨hresult, hformulas⟩ := hnormal.renderTree_eq level options (some f)
  obtain ⟨hother, -⟩ := hnormal.renderTree_eq level options other
  refine ⟨?_, ?_, (hfragments _).symm, ?_, ?_⟩
  · rw [hformulas, Option.isSome_some, if_pos rfl]
    exact Document.formulas_rendering hnormal (hfault _)
  · exact Document.formulas_rendering hnormal (hfault _)
  · rw [hother, hmarkup]
    rfl
  · rw [hresult, hmarkup]
    show Except.ok (Fragment.join _) = _
    rw [Option.getD_some, hfragments]
    rfl

/-- Captions on both sides of the statements: the formula of the first one is not
displayed, and that of the second one comes first. One formula gets empty markup. -/
theorem formulas_typeset_two_captions :
    let source := "\\begin{algorithm}\\caption{$s$}\\begin{algorithmic}\\IF{$c$}\\STATE$b$" ++
      "\\ENDIF\\FUNCTION{g}{$p$}\\RETURN$r$\\ENDFUNCTION\\end{algorithmic}\\caption{$t$}" ++
      "\\end{algorithm}"
    let f : String → String := fun body => if body = "b" then "" else body
    ∃ tree, parse source = .ok tree ∧
      let fragments := (tree.rendering ⟨.default, delimited⟩).page.fragments.toList
      (renderTree .warning .default (some f) tree).formulas = ["t", "c", "b", "p", "r"] ∧
      fragments.filterMap Fragment.formula? = ["t", "c", "b", "p", "r"] ∧
      (renderTree .warning .default none tree).result =
        .ok ("\n".intercalate ((fragments.map Fragment.markup).filter (· ≠ ""))) ∧
      (renderTree .warning .default (some f) tree).result = .ok ("\n".intercalate
        (((fragments.map (Fragment.typeset f)).map Fragment.markup).filter (· ≠ ""))) := by
  intro source f
  have hwords : (parse source).toOption.map Node.displayedFormulas =
      some ["t", "c", "b", "p", "r"] := by
    have htext : source.toList = _ := toList_append_append_ofList
    rw [parse_of_toList htext]
    decide +kernel
  cases htree : parse source with
  | error fault =>
      rw [htree] at hwords
      cases hwords
  | ok tree =>
      rw [htree] at hwords
      have hdisplayed : tree.displayedFormulas = ["t", "c", "b", "p", "r"] :=
        Option.some.inj hwords
      obtain ⟨hcalls, hplaces, -, hother, hresult⟩ :=
        @formulas_typeset_in_place source tree .default htree ⟨_, rfl⟩ ⟨_, rfl⟩ .warning f none
      exact ⟨tree, rfl, hcalls.trans hdisplayed, hplaces.trans hdisplayed, hother, hresult⟩

end AlgoBox
