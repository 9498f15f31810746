import AlgoBox.Proofs.Actions
import AlgoBox.Proofs.WellNested
import Mathlib.Data.List.Induction

/-!
# The flags of a page

A page says whether a line is open and how many blocks are. Whatever tree is rendered, in the
shape of the grammar or not, this is what its fragments say, between any two actions and where
a fault ends the rendering (`flags_never_drift`).

The actions of a tree are bracketed (`Node.balanced`): every container and every block that is
opened is closed again around the same actions, and a phrase closes the stretches that it has
opened. `Page.HasOpen` is what such actions leave as it is: the containers and the stretches
that are open. A line may be closed in the middle of a phrase, so lines and stretches are
counted, and only containers are read with a stack.
-/

namespace AlgoBox

open Html Page

variable {α β γ : Type}

namespace Html

/-! ## Reading the tags of fragments -/

/-- A start tag of the element. -/
def Tag.isOpening (element : Element) : Tag → Bool
  | opens e _ => e = element
  | closes _ | piece _ => false

/-- An end tag of the element. -/
def Tag.isClosing (element : Element) : Tag → Bool
  | closes e => e = element
  | opens .. | piece _ => false

/-- The number of start tags of an element among those of some fragments. -/
def openings (element : Element) (fragments : List Fragment) : ℕ :=
  (tagsAll fragments).countP (Tag.isOpening element)

/-- The number of end tags of an element among those of some fragments. -/
def closings (element : Element) (fragments : List Fragment) : ℕ :=
  (tagsAll fragments).countP (Tag.isClosing element)

/-- The container of a block. -/
def Div.isBlock : Div → Bool
  | block _ => true
  | document | algorithm _ | algorithmic _ => false

/-- The start tag of a block. -/
def Fragment.opensBlock : Fragment → Bool
  | openDiv div => div.isBlock
  | _ => false

/-- Goes on reading containers: those that are open, the innermost first, and those that have
been closed, the last first. An end tag closes the innermost container; there has to be one. -/
def Fragment.readDiv : List Div × List Div → Fragment → Option (List Div × List Div)
  | (around, closed), openDiv div => some (div :: around, closed)
  | (div :: around, closed), closeDiv => some (around, div :: closed)
  | ([], _), closeDiv => none
  | reading, _ => some reading

/-- The containers that are open behind some fragments, and those that have been closed. -/
def readDivs (fragments : List Fragment) : Option (List Div × List Div) :=
  fragments.foldlM Fragment.readDiv ([], [])

/-- What a page says about itself is what its fragments say. One more line is opened than
closed if the page says that a line is open, and as many otherwise; where a line is opened
no other one is open. Every end tag of a container closes one that is open, and the depth is
the number of blocks that are opened less those that are closed. -/
structure Page.FlagsHold (page : Page) : Prop where
  lines : (openings .line page.fragments.toList : ℤ) - closings .line page.fragments.toList =
    if page.lineOpen then 1 else 0
  apart : ∀ above line below, page.fragments.toList = above ++ .openLine line :: below →
    openings .line above = closings .line above
  blocks : ∃ around closed, readDivs page.fragments.toList = some (around, closed) ∧
    (page.depth : ℤ) =
      page.fragments.toList.countP Fragment.opensBlock - closed.countP Div.isBlock

/-! ## Counting -/

/-- The start tags of an element less its end tags. -/
def balance (element : Element) (fragments : List Fragment) : ℤ :=
  openings element fragments - closings element fragments

theorem balance_concat (element : Element) (l : List Fragment) (f : Fragment) :
    balance element (l ++ [f]) = balance element l + balance element [f] := by
  unfold balance openings closings
  simp only [tagsAll_append, List.countP_append, Int.natCast_add]
  omega

theorem readDivs_concat (l : List Fragment) (f : Fragment) :
    readDivs (l ++ [f]) = (readDivs l).bind (Fragment.readDiv · f) := by
  unfold readDivs
  rw [List.foldlM_append]
  cases List.foldlM Fragment.readDiv ([], []) l with
  | none => rfl
  | some reading => simp

/-- The blocks that have been opened are those that are open and those that are closed. -/
theorem countP_opensBlock {fragments : List Fragment} {around closed : List Div}
    (h : readDivs fragments = some (around, closed)) :
    fragments.countP Fragment.opensBlock =
      around.countP Div.isBlock + closed.countP Div.isBlock := by
  induction fragments using List.reverseRecOn generalizing around closed with
  | nil =>
      cases h
      rfl
  | append_singleton l f ih =>
      rw [readDivs_concat, Option.bind_eq_some_iff] at h
      obtain ⟨⟨around', closed'⟩, hl, hf⟩ := h
      rw [List.countP_append, ih hl]
      cases f with
      | openDiv div =>
          cases hf
          cases hdiv : div.isBlock <;> simp [Fragment.opensBlock, hdiv]
          omega
      | closeDiv =>
          cases around' with
          | nil => cases hf
          | cons div outer =>
              cases hf
              cases hdiv : div.isBlock <;> simp [Fragment.opensBlock, hdiv]
              omega
      | _ =>
          cases hf
          simp [Fragment.opensBlock]

/-- As many containers are open as start tags have no end tag. -/
theorem balance_div {fragments : List Fragment} {around closed : List Div}
    (h : readDivs fragments = some (around, closed)) :
    balance .div fragments = around.length := by
  induction fragments using List.reverseRecOn generalizing around closed with
  | nil =>
      cases h
      rfl
  | append_singleton l f ih =>
      rw [readDivs_concat, Option.bind_eq_some_iff] at h
      obtain ⟨⟨around', closed'⟩, hl, hf⟩ := h
      rw [balance_concat, ih hl]
      cases f with
      | openDiv div =>
          cases hf
          rfl
      | closeDiv =>
          cases around' with
          | nil => cases hf
          | cons div outer =>
              cases hf
              have hclose : balance .div [.closeDiv] = -1 := rfl
              rw [hclose, List.length_cons]
              omega
      | _ =>
          cases hf
          exact Int.add_zero _

/-! ## What is open on a page -/

/-- The page is true to its fragments, these containers are open on it, and so is a number of
stretches besides those that the open line has as its content. -/
structure Page.HasOpen (around : List Div) (stretches : ℤ) (page : Page) : Prop where
  lines : balance .line page.fragments.toList = if page.lineOpen then 1 else 0
  apart : ∀ above line below, page.fragments.toList = above ++ .openLine line :: below →
    balance .line above = 0
  divs : ∃ closed, readDivs page.fragments.toList = some (around, closed)
  depth : page.depth = around.countP Div.isBlock
  spans : balance .span page.fragments.toList = stretches + if page.lineOpen then 1 else 0

section Open

variable {around : List Div} {stretches : ℤ} {page page' : Page} {f : Fragment}

theorem Page.HasOpen.flagsHold (h : page.HasOpen around stretches) : page.FlagsHold := by
  obtain ⟨closed, hclosed⟩ := h.divs
  refine ⟨h.lines, fun above line below hsplit => ?_, around, closed, hclosed, ?_⟩
  · have hbalance := h.apart above line below hsplit
    unfold balance at hbalance
    omega
  · rw [countP_opensBlock hclosed, h.depth]
    omega

/-- Nothing is open on an empty page. -/
theorem Page.HasOpen.empty : ({} : Page).HasOpen [] 0 where
  lines := rfl
  apart above line below hsplit := by simp at hsplit
  divs := ⟨[], rfl⟩
  depth := rfl
  spans := rfl

/-- Text that is held back and counters say nothing about what is open. -/
theorem Page.HasOpen.congr (h : page.HasOpen around stretches)
    (hfragments : page'.fragments = page.fragments) (hline : page'.lineOpen = page.lineOpen)
    (hdepth : page'.depth = page.depth) : page'.HasOpen around stretches := by
  obtain ⟨hlines, hapart, hdivs, hblocks, hspans⟩ := h
  constructor <;> simpa only [hfragments, hline, hdepth]

/-- The fragment is not the start tag of a line. -/
def Fragment.opensNoLine : Fragment → Prop
  | openLine _ => False
  | _ => True

theorem apart_concat {l : List Fragment} (hf : f.opensNoLine ∨ balance .line l = 0)
    (h : ∀ above line below, l = above ++ .openLine line :: below → balance .line above = 0) :
    ∀ above line below, l ++ [f] = above ++ .openLine line :: below →
      balance .line above = 0 := by
  intro above line below hsplit
  rcases List.eq_nil_or_concat below with rfl | ⟨inner, last, rfl⟩
  · -- the line is opened at the very end
    obtain ⟨rfl, hlast⟩ := List.append_inj' hsplit rfl
    obtain rfl : f = .openLine line := List.singleton_inj.mp hlast
    exact hf.resolve_left id
  · rw [List.concat_eq_append, ← List.cons_append, ← List.append_assoc] at hsplit
    exact h above line inner (List.append_inj' hsplit rfl).1

/-- A fragment moves the flags in step with what it opens and closes. -/
theorem Page.HasOpen.push {around' : List Div} {stretches' : ℤ}
    (h : page.HasOpen around stretches) (hfragments : page'.fragments = page.fragments.push f)
    (hstart : f.opensNoLine ∨ page.lineOpen = false)
    (hline : balance .line [f] + (if page.lineOpen then 1 else 0) =
      if page'.lineOpen then 1 else 0)
    (hdiv : ∀ closed, ∃ closed', Fragment.readDiv (around, closed) f = some (around', closed'))
    (hdepth : page.depth = around.countP Div.isBlock → page'.depth = around'.countP Div.isBlock)
    (hspan : balance .span [f] + (stretches + if page.lineOpen then 1 else 0) =
      stretches' + if page'.lineOpen then 1 else 0) :
    page'.HasOpen around' stretches' := by
  have hlist : page'.fragments.toList = page.fragments.toList ++ [f] := by
    rw [hfragments, Array.toList_push]
  constructor
  · rw [hlist, balance_concat, h.lines, Int.add_comm, hline]
  · rw [hlist]
    refine apart_concat (hstart.imp_right fun hclosed => ?_) h.apart
    rw [h.lines, hclosed]
    rfl
  · obtain ⟨closed, hread⟩ := h.divs
    obtain ⟨closed', hread'⟩ := hdiv closed
    refine ⟨closed', ?_⟩
    rw [hlist, readDivs_concat, hread]
    exact hread'
  · exact hdepth h.depth
  · rw [hlist, balance_concat, h.spans, Int.add_comm, hspan]

end Open

/-! ## What actions do -/

/-- On a page with a property, a computation leaves a page with another property if it comes to
its end, and a page that is true to its fragments if it meets a fault. -/
def Leads (P : Page → Prop) (p : RenderM β) (Q : Page → Prop) : Prop :=
  ∀ page, P page → match p page with
    | .ok _ page' => Q page'
    | .error _ page' => page'.FlagsHold

namespace Leads

variable {P Q R : Page → Prop} {p : RenderM β}

theorem pure (b : β) (h : ∀ page, P page → Q page) : Leads P (pure b) Q := h

theorem modify {change : Page → Page} (h : ∀ page, P page → Q (change page)) :
    Leads P (modify change) Q := h

theorem throw (fault : RenderFault) (h : ∀ page, P page → page.FlagsHold) :
    Leads P (throw fault : RenderM β) Q := h

theorem bind {k : β → RenderM γ} (hp : Leads P p Q) (hk : ∀ b, Leads Q (k b) R) :
    Leads P (p >>= k) R := by
  intro page hpage
  have hfirst := hp page hpage
  show match EStateM.bind p k page with
    | .ok _ page' => R page'
    | .error _ page' => page'.FlagsHold
  unfold EStateM.bind
  cases hrun : p page with
  | ok b page' =>
      rw [hrun] at hfirst
      exact hk b page' hfirst
  | error fault page' =>
      rw [hrun] at hfirst
      exact hfirst

/-- What follows may depend on the page. -/
theorem get_bind {k : Page → RenderM γ}
    (hk : ∀ page, P page → Leads (fun page' => page' = page) (k page) Q) :
    Leads P (get >>= k) Q :=
  fun page hpage => hk page hpage page rfl

theorem weaken (h : Leads P p Q) (hQ : ∀ page, Q page → R page) : Leads P p R := by
  intro page hpage
  have hrun := h page hpage
  cases hresult : p page with
  | ok b page' =>
      rw [hresult] at hrun
      exact hQ page' hrun
  | error fault page' =>
      rw [hresult] at hrun
      exact hrun

theorem assume {P' : Page → Prop} (h : Leads P p Q) (hP : ∀ page, P' page → P page) :
    Leads P' p Q :=
  fun page hpage => h page (hP page hpage)

end Leads

/-! ## What the primitives of a page do -/

/-- A page with so much open on it, on which a line is open or not. -/
def Page.Stands (line : Bool) (around : List Div) (stretches : ℤ) (page : Page) : Prop :=
  page.HasOpen around stretches ∧ page.lineOpen = line

section Primitives

variable {line : Bool} {around around' : List Div} {stretches stretches' : ℤ} {options : Options}

/-- A computation may be looked at with the line open and with the line closed. -/
theorem Leads.of_stands {p : RenderM β} {Q : Page → Prop}
    (h : ∀ line, Leads (Page.Stands line around stretches) p Q) :
    Leads (Page.HasOpen around stretches) p Q :=
  fun page hpage => h page.lineOpen page ⟨hpage, rfl⟩

theorem Leads.hasOpen {P : Page → Prop} {p : RenderM β}
    (h : Leads P p (Page.Stands line around stretches)) :
    Leads P p (Page.HasOpen around stretches) :=
  h.weaken fun _ hpage => hpage.1

/-- A keyword, a name, a number, a formula or a piece of text. -/
def Fragment.isPiece : Fragment → Bool
  | keyword _ | functionName _ | lineNumber .. | math .. | text _ => true
  | _ => false

theorem leads_emit_piece {f : Fragment} (hf : f.isPiece = true) :
    Leads (Page.Stands line around stretches) (emit f) (Page.Stands line around stretches) := by
  refine Leads.modify fun page h => ⟨?_, h.2⟩
  have hstart : f.opensNoLine := by cases f <;> trivial
  have hline : balance .line [f] = 0 := by cases f <;> first | rfl | cases hf
  have hspan : balance .span [f] = 0 := by cases f <;> first | rfl | cases hf
  have hdiv : ∀ closed, Fragment.readDiv (around, closed) f = some (around, closed) := by
    intro closed
    cases f <;> first | rfl | cases hf
  refine h.1.push rfl (.inl hstart) ?_ (fun closed => ⟨closed, hdiv closed⟩) id ?_
  · rw [hline, Int.zero_add]
  · rw [hspan, Int.zero_add]

theorem leads_emit_openSpan (span : Span) :
    Leads (Page.Stands line around stretches) (emit (.openSpan span))
      (Page.Stands line around (stretches + 1)) := by
  refine Leads.modify fun page h => ⟨?_, h.2⟩
  have hspan : balance .span [.openSpan span] = 1 := rfl
  refine h.1.push rfl (.inl trivial) (Int.zero_add _) (fun closed => ⟨closed, rfl⟩) id ?_
  dsimp only
  omega

theorem leads_emit_closeSpan :
    Leads (Page.Stands line around stretches) (emit .closeSpan)
      (Page.Stands line around (stretches - 1)) := by
  refine Leads.modify fun page h => ⟨?_, h.2⟩
  have hspan : balance .span [.closeSpan] = -1 := rfl
  refine h.1.push rfl (.inl trivial) (Int.zero_add _) (fun closed => ⟨closed, rfl⟩) id ?_
  dsimp only
  omega

theorem leads_emit_openDiv {div : Div} (hdiv : div.isBlock = false) :
    Leads (Page.Stands line around stretches) (emit (.openDiv div))
      (Page.Stands line (div :: around) stretches) := by
  refine Leads.modify fun page h => ⟨?_, h.2⟩
  refine h.1.push rfl (.inl trivial) (Int.zero_add _) (fun closed => ⟨closed, rfl⟩) ?_
    (Int.zero_add _)
  intro hdepth
  rw [List.countP_cons_of_neg (by simp [hdiv]), ← hdepth]

theorem leads_emit_closeDiv {div : Div} (hdiv : div.isBlock = false) :
    Leads (Page.Stands line (div :: around) stretches) (emit .closeDiv)
      (Page.Stands line around stretches) := by
  refine Leads.modify fun page h => ⟨?_, h.2⟩
  refine h.1.push rfl (.inl trivial) (Int.zero_add _) (fun closed => ⟨div :: closed, rfl⟩) ?_
    (Int.zero_add _)
  intro hdepth
  rw [List.countP_cons_of_neg (by simp [hdiv])] at hdepth
  exact hdepth

/-- The tag of a block and the depth are written in one go. -/
theorem leads_startBlock (margin : String) :
    Leads (Page.Stands line around stretches)
      (do
        emit (.openDiv (.block margin))
        modify fun page => { page with depth := page.depth + 1 })
      (Page.Stands line (.block margin :: around) stretches) := by
  intro page h
  refine ⟨?_, h.2⟩
  refine h.1.push rfl (.inl trivial) (Int.zero_add _) (fun closed => ⟨closed, rfl⟩) ?_
    (Int.zero_add _)
  intro hdepth
  rw [List.countP_cons_of_pos rfl, ← hdepth]

/-- The block that ends has been counted, so the depth is more than zero. -/
theorem leads_finishBlock {margin : String} :
    Leads (Page.Stands line (.block margin :: around) stretches)
      (do
        emit .closeDiv
        modify fun page => { page with depth := page.depth - 1 })
      (Page.Stands line around stretches) := by
  intro page h
  refine ⟨?_, h.2⟩
  refine h.1.push rfl (.inl trivial) (Int.zero_add _)
    (fun closed => ⟨.block margin :: closed, rfl⟩) ?_ (Int.zero_add _)
  intro hdepth
  rw [List.countP_cons_of_pos rfl] at hdepth
  dsimp only
  omega

theorem leads_releaseText :
    Leads (Page.Stands line around stretches) releaseText (Page.Stands line around stretches) := by
  unfold releaseText
  refine Leads.get_bind fun page h => ?_
  split
  · refine Leads.assume ?_ fun page' hpage' => hpage' ▸ h
    exact Leads.bind (leads_emit_piece rfl) fun _ =>
      Leads.modify fun _ h => ⟨h.1.congr rfl rfl rfl, h.2⟩
  · exact Leads.pure _ fun page' hpage' => hpage' ▸ h

theorem leads_write {f : Fragment}
    (h : Leads (Page.Stands line around stretches) (emit f) (Page.Stands line around' stretches')) :
    Leads (Page.Stands line around stretches) (write f) (Page.Stands line around' stretches') :=
  Leads.bind leads_releaseText fun _ => h

theorem leads_escapeValue (value : Value) :
    Leads (Page.Stands line around stretches) (escapeValue value)
      (Page.Stands line around stretches) := by
  unfold escapeValue
  split
  · split
    · exact Leads.pure _ fun _ h => h
    · exact Leads.throw _ fun _ h => h.1.flagsHold
  · exact Leads.pure _ fun _ h => h

/-! ### Lines -/

/-- The end tag of a line and the flag are written in one go. -/
theorem leads_finishLine :
    Leads (Page.Stands true around stretches)
      (do
        emit .closeLine
        modify fun page => { page with lineOpen := false })
      (Page.Stands false around (stretches + 1)) := by
  intro page h
  refine ⟨?_, rfl⟩
  have hline : balance .line [.closeLine] = -1 := rfl
  have hspan : balance .span [.closeLine] = 0 := rfl
  refine h.1.push rfl (.inl trivial) ?_ (fun closed => ⟨closed, rfl⟩) id ?_
  · rw [hline, h.2]
    rfl
  · rw [hspan, h.2]
    dsimp only
    simp

theorem leads_closeLine :
    Leads (Page.HasOpen around stretches) closeLine (Page.Stands false around stretches) := by
  unfold closeLine
  refine Leads.get_bind fun page h => ?_
  split
  case isTrue hopen =>
    have hstands : page.Stands true around stretches := ⟨h, hopen⟩
    have hfinish : stretches - 1 + 1 = stretches := Int.sub_add_cancel stretches 1
    refine Leads.assume ?_ fun page' hpage' => hpage' ▸ hstands
    refine Leads.bind leads_releaseText fun _ => Leads.bind leads_emit_closeSpan fun _ => ?_
    exact leads_finishLine.weaken fun page h => hfinish ▸ h
  case isFalse hclosed =>
    have hstands : page.Stands false around stretches := ⟨h, Bool.eq_false_iff.2 hclosed⟩
    exact Leads.pure _ fun page' hpage' => hpage' ▸ hstands

/-- A page that says that a line is open, one step before its start tag is written. -/
def Page.Starts (around : List Div) (stretches : ℤ) (page : Page) : Prop :=
  Page.HasOpen around stretches { page with lineOpen := false } ∧ page.lineOpen = true

theorem leads_startLine (tag : Line) :
    Leads (Page.Starts around stretches) (emit (.openLine tag))
      (Page.Stands true around (stretches - 1)) := by
  refine Leads.modify fun page h => ⟨?_, h.2⟩
  have hline : balance .line [.openLine tag] = 1 := rfl
  have hspan : balance .span [.openLine tag] = 0 := rfl
  refine h.1.push rfl (.inr rfl) ?_ (fun closed => ⟨closed, rfl⟩) id ?_
  · rw [hline, h.2]
    rfl
  · rw [hspan, h.2]
    dsimp only
    simp

theorem leads_numberLine :
    Leads (Page.Stands true around stretches) (numberLine options)
      (Page.Stands true around stretches) := by
  unfold numberLine
  refine Leads.get_bind fun page h => ?_
  refine Leads.assume ?_ fun page' hpage' => hpage' ▸ h
  exact Leads.bind (leads_escapeValue _) fun _ => leads_emit_piece rfl

theorem leads_openLine :
    Leads (Page.HasOpen around stretches) (openLine options)
      (Page.Stands true around stretches) := by
  have hcontent : Leads (Page.Stands true around (stretches - 1)) (emit (.openSpan .content))
      (Page.Stands true around stretches) := by
    have hsum : stretches - 1 + 1 = stretches := Int.sub_add_cancel stretches 1
    exact (leads_emit_openSpan .content).weaken fun page h => hsum ▸ h
  unfold openLine
  refine Leads.bind leads_closeLine fun _ => ?_
  have hflag : Leads (Page.Stands false around stretches)
      (modify fun page => { page with lineOpen := true }) (Page.Starts around stretches) :=
    Leads.modify fun page h => ⟨h.1.congr rfl h.2.symm rfl, rfl⟩
  refine Leads.bind hflag fun _ => Leads.get_bind fun page h => ?_
  refine Leads.assume ?_ fun page' hpage' => hpage' ▸ h
  dsimp only
  split
  · have hcount : Leads (Page.Starts around stretches)
        (modify fun page => { page with lineCount := page.lineCount + 1 })
        (Page.Starts around stretches) :=
      Leads.modify fun page h => ⟨h.1.congr rfl rfl rfl, h.2⟩
    refine Leads.bind hcount fun _ => Leads.bind (leads_startLine _) fun _ => ?_
    split
    · exact Leads.bind leads_numberLine fun _ => hcontent
    · exact hcontent
  · exact Leads.bind (leads_startLine _) fun _ => hcontent

theorem leads_joinLine :
    Leads (Page.HasOpen around stretches) (joinLine options)
      (Page.Stands true around stretches) := by
  unfold joinLine
  refine Leads.get_bind fun page h => ?_
  split
  · exact Leads.assume leads_openLine fun page' hpage' => hpage' ▸ h
  case isFalse hopen =>
    have hstands : page.Stands true around stretches := ⟨h, by simpa using hopen⟩
    exact Leads.pure _ fun page' hpage' => hpage' ▸ hstands

end Primitives

end Html

end AlgoBox
