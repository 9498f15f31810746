import AlgoBox.Proofs.Drawing
import AlgoBox.Proofs.Relating
import AlgoBox.Proofs.RenderTotal

/-!
# Rendering below other fragments

Rendering looks at what a page says about itself, never at the fragments on it. So below
other fragments a tree is rendered as on a page without any (`Node.render_below`), and
what a phrase brings to a page is the same wherever it stands (`Words.render_eq`): the
text that is held back comes first, and then the fragments of the phrase alone.
-/

namespace AlgoBox

open Html Page Grammar

variable {α β γ : Type}

namespace Html

/-- The page with fragments above its own. -/
def Page.below (page : Page) (above : Array Fragment) : Page :=
  { page with fragments := above ++ page.fragments }

/-- The outcome of a computation with fragments above those of the page. -/
def belowResult (above : Array Fragment) :
    EStateM.Result RenderFault Page β → EStateM.Result RenderFault Page β
  | .ok b page => .ok b (page.below above)
  | .error fault page => .error fault (page.below above)

/-- The first computation does below other fragments what the second one does. -/
class Appends (p q : RenderM β) : Prop where
  run_below : ∀ (above : Array Fragment) (page : Page),
    p (page.below above) = belowResult above (q page)

namespace Appends

variable {p q : RenderM β}

instance pure (b : β) : Appends (pure b : RenderM β) (pure b) := ⟨fun _ _ => rfl⟩

instance throw (fault : RenderFault) : Appends (throw fault : RenderM β) (throw fault) :=
  ⟨fun _ _ => rfl⟩

theorem modify {change : Page → Page}
    (h : ∀ above page, change (page.below above) = (change page).below above) :
    Appends (modify change) (modify change) :=
  ⟨fun above page => congrArg (EStateM.Result.ok ()) (h above page)⟩

instance bind {k k' : β → RenderM γ} [hp : Appends p q] [hk : ∀ b, Appends (k b) (k' b)] :
    Appends (p >>= k) (q >>= k') where
  run_below above page := by
    show EStateM.bind p k _ = belowResult above (EStateM.bind q k' page)
    unfold EStateM.bind
    rw [hp.run_below]
    cases q page with
    | ok b page' => exact (hk b).run_below above page'
    | error => rfl

/-- What follows may look at all of the page but its fragments. -/
theorem get_bind {k k' : Page → RenderM γ} (hk : ∀ page, Appends (k page) (k' page))
    (hbelow : ∀ above page, k (page.below above) = k page) :
    Appends (get >>= k) (get >>= k') where
  run_below above page := by
    show k (page.below above) (page.below above) = belowResult above (k' page page)
    rw [hbelow]
    exact (hk page).run_below above page

instance ite (c : Prop) [Decidable c] {p' q' : RenderM β} [hp : Appends p q]
    [hp' : Appends p' q'] : Appends (if c then p else p') (if c then q else q') := by
  split
  · exact hp
  · exact hp'

/-- `bind` with its premises as arguments. -/
theorem before {k k' : β → RenderM γ} (hp : Appends p q) (hk : ∀ b, Appends (k b) (k' b)) :
    Appends (p >>= k) (q >>= k') := bind

instance emit (fragment : Fragment) : Appends (emit fragment) (emit fragment) :=
  modify fun above page => by simp [Page.below]

instance (text : String) : Appends (holdText text) (holdText text) := modify fun _ _ => rfl

instance : Appends releaseText releaseText := by
  unfold releaseText
  refine get_bind (fun page => ?_) fun _ _ => rfl
  split
  · exact before inferInstance fun _ => modify fun _ _ => rfl
  · infer_instance

instance (fragment : Fragment) : Appends (write fragment) (write fragment) := by
  unfold write
  infer_instance

instance (word : String) : Appends (writeKeyword word) (writeKeyword word) := by
  unfold writeKeyword
  infer_instance

instance : Appends closeLine closeLine := by
  unfold closeLine
  refine get_bind (fun page => ?_) fun _ _ => rfl
  split
  · exact before inferInstance fun _ => before inferInstance fun _ => before inferInstance fun _ =>
      modify fun _ _ => rfl
  · infer_instance

instance (div : Div) : Appends (openDiv div) (openDiv div) := emit _

instance : Appends closeDiv closeDiv := by
  unfold closeDiv
  infer_instance

instance (options : Options) : Appends (openBlock options) (openBlock options) :=
  before inferInstance fun _ => before inferInstance fun _ => modify fun _ _ => rfl

instance : Appends closeBlock closeBlock :=
  before inferInstance fun _ => modify fun _ _ => rfl

instance : Appends countCaption countCaption := modify fun _ _ => rfl

instance : Appends resetLineCount resetLineCount := modify fun _ _ => rfl

instance (value : Value) : Appends (escapeValue value) (escapeValue value) := by
  unfold escapeValue
  split
  · split <;> infer_instance
  · infer_instance

instance (options : Options) : Appends (numberLine options) (numberLine options) := by
  unfold numberLine
  exact get_bind (fun page => inferInstance) fun _ _ => rfl

instance (options : Options) : Appends (openLine options) (openLine options) := by
  unfold openLine
  dsimp only
  refine before inferInstance fun _ => before (modify fun _ _ => rfl) fun _ =>
    get_bind (fun page => ?_) fun _ _ => rfl
  split
  · exact before (modify fun _ _ => rfl) fun _ => inferInstance
  · infer_instance

instance (options : Options) : Appends (joinLine options) (joinLine options) := by
  unfold joinLine
  exact get_bind (fun page => inferInstance) fun _ _ => rfl

theorem captionLine {setup : Setup} {text text' : RenderM Unit} (htext : Appends text text') :
    Appends (captionLine setup text) (captionLine setup text') := by
  unfold Html.captionLine
  exact before inferInstance fun _ => get_bind (fun page => inferInstance) fun _ _ => rfl

theorem relates (setup : Setup) : Relates setup setup Appends where
  lineNumber := rfl
  pure := .pure
  throw := .throw
  bind := .before
  holdText _ := inferInstance
  releaseText := inferInstance
  writeKeyword _ := inferInstance
  functionName _ := inferInstance
  math _ := inferInstance
  openSpan _ := inferInstance
  closeSpan := inferInstance
  comment hwords := .before inferInstance fun _ => .before inferInstance fun _ =>
    .before inferInstance fun _ => .before hwords fun _ => inferInstance
  openLine := inferInstance
  joinLine := inferInstance
  captionLine := .captionLine
  openDiv _ := inferInstance
  closeDiv := inferInstance
  openBlock := inferInstance
  closeBlock := inferInstance
  countCaption := inferInstance
  resetLineCount := inferInstance

end Appends

/-- The text that a page holds back, as it is going to be written. -/
def Page.held (page : Page) : List Fragment :=
  if page.pending.isEmpty then [] else [.text (String.join page.pending.toList)]

theorem Page.merged_pending (page : Page) :
    merged (page.pending.toList.map .text) = page.held := by
  unfold Page.held
  rw [← Array.isEmpty_toList]
  cases page.pending.toList with
  | nil => rfl
  | cons text texts => exact merged_texts text texts

end Html

/-- Below other fragments a tree is rendered as on a page without them. -/
theorem Node.render_below (setup : Setup) (node : Node α) (above : Array Fragment) (page : Page) :
    node.render setup (page.below above) = belowResult above (node.render setup page) :=
  (node.related (Appends.relates setup)).run_below above page

/-- What a phrase brings to a page: the text held back is written, then the phrase as on a
page of its own. Nothing else of the page changes. -/
theorem Words.render_eq {words : Phrase α} (h : Words .normal words) (setup : Setup)
    (page : Page) :
    words.render setup page = .ok () { page with
      fragments := page.fragments ++ (page.held ++ merged (words.inline setup).fragments).toArray
      pending := #[] } := by
  have hbelow := Node.render_below setup (.text words) page.fragments { page with fragments := #[] }
  have hpage : ({ page with fragments := #[] } : Page).below page.fragments = page := by
    simp [Page.below]
  rw [hpage] at hbelow
  obtain ⟨⟨⟩, page', hpage'⟩ := (h.completes setup).completes { page with fragments := #[] }
  have hshows : Page.Shows (page.pending.toList.map .text) page.status
      { page with fragments := #[] } :=
    ⟨⟨[], rfl, not_endsText_nil, rfl⟩, rfl⟩
  have hshows' := h.emits setup _ _ _ _ _ hshows hpage'
  obtain ⟨loc, items⟩ := words
  have hends : ¬EndsText (page.pending.toList.map .text ++
      ((Phrase.mk loc items).inline setup).fragments) := by
    intro hends
    have hlast := (endsText_append_cons _ (.openSpan .phrase) _).1 hends
    exact (endsText_append_singleton
      (.openSpan .phrase :: Inline.fragmentsAll (Node.inlines setup items)) .closeSpan).1 hlast
  obtain ⟨hfragments, hpending, hstatus⟩ := hshows'.written hends
  have hstarts : ¬StartsText ((Phrase.mk loc items).inline setup).fragments := fun hstarts =>
    (startsText_cons (.openSpan .phrase) _).1 hstarts
  rw [merged_append fun _ => hstarts, Page.merged_pending] at hfragments
  obtain ⟨fragments, depth, lineOpen, pending, lineCount, captionCount⟩ := page'
  cases hstatus
  obtain rfl : pending = #[] := hpending
  rw [← hfragments, Array.toArray_toList]
  exact hbelow.trans (congrArg (belowResult page.fragments) hpage')

end AlgoBox
