import AlgoBox.Proofs.Flags

/-!
# Every tree is rendered by bracketed actions

The actions of a tree close every container and every block that they open, around actions of
the same kind, and a phrase closes the stretches that it has opened (`Node.balanced`). This is
so by the shape of the recursion alone, not by the shape of the tree: a caption may hold a
block, and a comment an algorithm.

Bracketed actions pass only pages that are true to their fragments (`Balanced.passes`), so the
flags of a page hold at every step of rendering (`flags_never_drift`).
-/

namespace AlgoBox

open Html Page

variable {α : Type}

namespace Html

/-! ## The way through some actions -/

/-- From a page with a property all pages on the way through some actions are true to their
fragments, and if the actions come to their end, the last page has another property. -/
structure Passes (setup : Setup) (P : Page → Prop) (actions : List Action) (Q : Page → Prop) :
    Prop where
  way : ∀ page, P page → ∀ page' ∈ trail setup actions page, page'.FlagsHold
  leads : Leads P (performAll setup actions) Q

section Passing

variable {setup : Setup} {P Q R : Page → Prop} {l m : List Action}

/-- A page on the way through two lists of actions is on the way through one of them. -/
theorem mem_trail_append {page page' : Page} (h : page' ∈ trail setup (l ++ m) page) :
    page' ∈ trail setup l page ∨
      ∃ between, performAll setup l page = .ok () between ∧ page' ∈ trail setup m between := by
  induction l generalizing page with
  | nil => exact .inr ⟨page, rfl, h⟩
  | cons action rest ih =>
      rw [performAll_cons, List.cons_append] at *
      show _ ∨ ∃ between, EStateM.bind _ _ page = _ ∧ _
      rw [trail] at h ⊢
      unfold EStateM.bind
      cases haction : action.perform setup page with
      | error fault behind =>
          rw [haction] at h
          exact .inl h
      | ok u behind =>
          rw [haction] at h
          rcases List.mem_cons.1 h with rfl | hrest
          · exact .inl (List.mem_cons_self ..)
          · exact (ih hrest).imp_left (List.mem_cons_of_mem _)

theorem Passes.nil (h : ∀ page, P page → page.FlagsHold) : Passes setup P [] P where
  way page hpage _ hmem := List.mem_singleton.1 hmem ▸ h page hpage
  leads := Leads.pure _ fun _ hpage => hpage

theorem Passes.append (hl : Passes setup P l Q) (hm : Passes setup Q m R) :
    Passes setup P (l ++ m) R where
  way page hpage page' hmem := by
    rcases mem_trail_append hmem with hfirst | ⟨between, hrun, hsecond⟩
    · exact hl.way page hpage page' hfirst
    · have hbetween := hl.leads page hpage
      rw [hrun] at hbetween
      exact hm.way between hbetween page' hsecond
  leads := by
    rw [performAll_append]
    exact Leads.bind hl.leads fun _ => hm.leads

/-- One action on its own. -/
theorem Passes.single {action : Action} (hP : ∀ page, P page → page.FlagsHold)
    (hQ : ∀ page, Q page → page.FlagsHold) (h : Leads P (action.perform setup) Q) :
    Passes setup P [action] Q where
  way page hpage page' hmem := by
    have hrun := h page hpage
    unfold trail at hmem
    cases haction : action.perform setup page with
    | ok u behind =>
        rw [haction] at hmem hrun
        rcases List.mem_cons.1 hmem with rfl | hlast
        · exact hP _ hpage
        · exact List.mem_singleton.1 hlast ▸ hQ _ hrun
    | error fault behind =>
        rw [haction] at hmem hrun
        rcases List.mem_cons.1 hmem with rfl | hlast
        · exact hP _ hpage
        · exact List.mem_singleton.1 hlast ▸ hrun
  leads := by
    rw [performAll_cons, performAll_nil]
    exact Leads.bind h fun _ => Leads.pure _ fun _ hpage => hpage

theorem Passes.weaken (h : Passes setup P l Q) (hQ : ∀ page, Q page → R page) :
    Passes setup P l R :=
  ⟨h.way, h.leads.weaken hQ⟩

end Passing

/-! ## Bracketed actions -/

/-- An action that brackets nothing: it leaves what is open in containers and in stretches. -/
def Action.isPlain : Action → Bool
  | openDiv _ | closeDiv | openBlock | closeBlock | openSpan _ | closeSpan => false
  | _ => true

/-- Actions that close the containers and blocks they open, and the number of stretches that
they open more than they close. -/
inductive Action.Balanced : List Action → ℤ → Prop
  | nil : Balanced [] 0
  | plain {action : Action} : action.isPlain = true → Balanced [action] 0
  | openSpan (span : Span) : Balanced [.openSpan span] 1
  | closeSpan : Balanced [.closeSpan] (-1)
  | append {l m : List Action} {j k : ℤ} :
      Balanced l j → Balanced m k → Balanced (l ++ m) (j + k)
  | container {div : Div} {l : List Action} {k : ℤ} : div.isBlock = false → Balanced l k →
      Balanced (.openDiv div :: (l ++ [.closeDiv])) k
  | block {l : List Action} {k : ℤ} : Balanced l k →
      Balanced (.openBlock :: (l ++ [.closeBlock])) k

section Steps

variable {setup : Setup} {around : List Div} {stretches : ℤ}

/-- A plain action leaves what is open. -/
theorem Action.leads_of_isPlain {action : Action} (h : action.isPlain = true) :
    Leads (Page.HasOpen around stretches) (action.perform setup)
      (Page.HasOpen around stretches) := by
  cases action with
  | openLine => exact leads_openLine.hasOpen
  | joinLine => exact leads_joinLine.hasOpen
  | closeLine => exact leads_closeLine.hasOpen
  | keyword word => exact Leads.of_stands fun line => (leads_emit_piece rfl).hasOpen
  | nameAlgorithm =>
      refine Leads.of_stands fun line => Leads.get_bind fun page hpage => ?_
      refine Leads.assume ?_ fun page' heq => heq ▸ hpage
      exact (leads_write (leads_emit_piece rfl)).hasOpen
  | functionName name => exact Leads.of_stands fun line => (leads_emit_piece rfl).hasOpen
  | math body => exact Leads.of_stands fun line => (leads_emit_piece rfl).hasOpen
  | hold text => exact Leads.modify fun page hpage => hpage.congr rfl rfl rfl
  | holdSymbol =>
      refine Leads.of_stands fun line => Leads.bind (leads_escapeValue _) fun symbol => ?_
      exact Leads.modify fun page hpage => hpage.1.congr rfl rfl rfl
  | release => exact Leads.of_stands fun line => leads_releaseText.hasOpen
  | countCaption => exact Leads.modify fun page hpage => hpage.congr rfl rfl rfl
  | resetLineCount => exact Leads.modify fun page hpage => hpage.congr rfl rfl rfl
  | fail fault => exact Leads.throw fault fun page hpage => hpage.flagsHold
  | openDiv | closeDiv | openBlock | closeBlock | openSpan | closeSpan => cases h

theorem passes_openDiv {div : Div} (hdiv : div.isBlock = false) :
    Passes setup (Page.HasOpen around stretches) [.openDiv div]
      (Page.HasOpen (div :: around) stretches) :=
  Passes.single (fun _ h => h.flagsHold) (fun _ h => h.flagsHold)
    (Leads.of_stands fun _ => (leads_emit_openDiv hdiv).hasOpen)

/-- The end of a container leaves no line open. -/
theorem passes_closeDiv {div : Div} (hdiv : div.isBlock = false) :
    Passes setup (Page.HasOpen (div :: around) stretches) [.closeDiv]
      (Page.Stands false around stretches) :=
  Passes.single (fun _ h => h.flagsHold) (fun _ h => h.1.flagsHold)
    (Leads.bind leads_closeLine fun _ => leads_emit_closeDiv hdiv)

theorem passes_openBlock :
    Passes setup (Page.HasOpen around stretches) [.openBlock]
      (Page.HasOpen (.block (Em.format setup.options.indent.toBinary64) :: around) stretches) :=
  Passes.single (fun _ h => h.flagsHold) (fun _ h => h.flagsHold)
    (Leads.bind leads_closeLine fun _ => (leads_startBlock _).hasOpen)

theorem passes_closeBlock {margin : String} :
    Passes setup (Page.HasOpen (.block margin :: around) stretches) [.closeBlock]
      (Page.HasOpen around stretches) := by
  refine Passes.single (fun _ h => h.flagsHold) (fun _ h => h.flagsHold) ?_
  show Leads _ closeBlock _
  unfold closeBlock closeDiv
  rw [bind_assoc]
  exact Leads.bind leads_closeLine fun _ => leads_finishBlock.hasOpen

end Steps

/-- Bracketed actions leave the containers that are open, and count the stretches. -/
theorem Action.Balanced.passes {actions : List Action} {k : ℤ} (h : Balanced actions k)
    (setup : Setup) (around : List Div) (stretches : ℤ) :
    Passes setup (Page.HasOpen around stretches) actions
      (Page.HasOpen around (stretches + k)) := by
  have hflags : ∀ {around stretches} page, Page.HasOpen around stretches page → page.FlagsHold :=
    fun page h => h.flagsHold
  induction h generalizing around stretches with
  | nil => simpa using Passes.nil hflags
  | plain hplain => simpa using Passes.single hflags hflags (leads_of_isPlain hplain)
  | openSpan span =>
      exact Passes.single hflags hflags
        (Leads.of_stands fun line => (leads_emit_openSpan span).hasOpen)
  | closeSpan =>
      exact Passes.single hflags hflags
        (Leads.of_stands fun line => leads_emit_closeSpan.hasOpen)
  | append _ _ ihl ihm =>
      rw [← Int.add_assoc]
      exact (ihl around stretches).append (ihm around _)
  | container hdiv _ ih =>
      -- the line that is open at the end of the container is closed first
      have hinside := (passes_openDiv hdiv).append (ih (_ :: around) stretches)
      exact hinside.append ((passes_closeDiv hdiv).weaken fun page h => h.1)
  | block _ ih =>
      have hinside := passes_openBlock.append (ih (_ :: around) stretches)
      exact hinside.append passes_closeBlock

/-! ## Trees -/

namespace Action.Balanced

variable {l m : List Action} {k : ℤ}

theorem cons {action : Action} (h : action.isPlain = true) (hl : Balanced l k) :
    Balanced (action :: l) k := by
  have hcons := (plain h).append hl
  rwa [Int.zero_add] at hcons

theorem append_zero (hl : Balanced l k) (hm : Balanced m 0) : Balanced (l ++ m) k := by
  have happend := hl.append hm
  rwa [Int.add_zero] at happend

theorem openSpan_cons {span : Span} (hl : Balanced l k) :
    Balanced (.openSpan span :: l) (k + 1) := by
  rw [Int.add_comm]
  exact (openSpan span).append hl

theorem replicate_closeSpan (count : ℕ) : Balanced (.replicate count .closeSpan) (-count) := by
  induction count with
  | zero => exact nil
  | succ count ih =>
      have hnext := ih.append closeSpan
      rw [List.replicate_succ']
      rw [show -((count + 1 : ℕ) : ℤ) = -(count : ℤ) + -1 by omega]
      exact hnext

/-- A keyword behind the text held back. -/
theorem word (word : String) : Balanced [.release, .keyword word] 0 :=
  cons rfl (plain rfl)

theorem keyword (word : String) : Balanced (keywordActions word) 0 :=
  cons rfl (Balanced.word word)

theorem caption (h : Balanced l 0) : Balanced (captionActions l) 0 :=
  cons rfl (cons rfl (h.append_zero (plain rfl)))

theorem application (name : String) (h : Balanced l 0) :
    Balanced (applicationActions name l) 0 :=
  cons rfl (cons rfl (cons rfl (h.append_zero (plain rfl))))

/-- Actions that are left out or not. -/
theorem ite (c : Prop) [Decidable c] (hl : Balanced l k) (hm : Balanced m k) :
    Balanced (if c then l else m) k := by
  split
  · exact hl
  · exact hm

end Action.Balanced

end Html

theorem Leaf.balanced (item : Leaf) : Action.Balanced item.actions 0 := by
  cases item with
  | special escape =>
      unfold Leaf.actions
      dsimp only
      cases escapeMarkup? escape with
      | some markup => exact .plain rfl
      | none => exact .plain rfl
  | math body => exact .cons rfl (.plain rfl)
  | bool keyword => exact .word _
  | ordinary | size | font => exact .plain rfl

mutual

/-- The actions of a tree are bracketed, whatever its shape. -/
theorem Node.balanced (options : Options) : ∀ node : Node α,
    Action.Balanced (node.actions options) 0
  | .bare _ | .branch _ => .plain rfl
  | .leaf _ item => item.balanced
  | .root _ children => .container rfl (Node.balanced_all options children)
  | .algorithm _ children => by
    have hparts := (Node.balanced_lastCaption options children).append_zero
      (Node.balanced_parts options children)
    have hcount : Action.Balanced
        (if children.any Node.isCaption then [.countCaption] else []) 0 :=
      .ite _ (.plain rfl) .nil
    exact hcount.append_zero (.container rfl hparts)
  | .caption _ words => (Phrase.balanced options words).caption
  | .algorithmic _ children => by
    have hreset : Action.Balanced
        (if options.lineNumber.isTrue then [.resetLineCount] else []) 0 :=
      .ite _ (.plain rfl) .nil
    exact hreset.append_zero (.container rfl (Node.balanced_all options children))
  | .block _ children => (Node.balanced_all options children).block
  | .function _ kind name params body => by
    have happlication := (Phrase.balanced options params).application name
    have hhead := (Action.Balanced.keyword (Text.lower kind)).append_zero happlication
    exact (hhead.append_zero (Node.balanced_body options body)).append_zero (.keyword _)
  | .conditional _ branches hasElse elseBody => by
    have helse := (Action.Balanced.keyword "else").append_zero
      (Node.balanced_body options elseBody)
    have harms := (Branch.balanced_all options branches).append_zero
      (.ite (hasElse = true) helse .nil)
    exact harms.append_zero (.keyword "end if")
  | .loop _ word cond body => by
    have hhead := (Action.Balanced.keyword (Text.lower word)).append_zero
      (Phrase.balanced options cond)
    have hdo := hhead.append_zero (.word "do")
    exact (hdo.append_zero (Node.balanced_body options body)).append_zero (.keyword _)
  | .command _ name words => by
    have hwords := Phrase.balanced options words
    unfold Node.actions
    cases commandLabel? name with
    | none => exact .plain rfl
    | some label =>
        have hlabel : Action.Balanced
            (if label ≠ "" then [.release, .keyword label] else []) 0 :=
          .ite _ (.word label) .nil
        exact .cons rfl (hlabel.append_zero hwords)
  | .call _ name args => .cons rfl ((Phrase.balanced options args).application name)
  | .comment _ words => by
    have hclosed : Action.Balanced [.release, .closeSpan] (-1) := .cons rfl .closeSpan
    have hwords := (Phrase.balanced options words).append hclosed
    exact .cons rfl (.cons rfl (.openSpan_cons (.cons rfl hwords)))
  | .text words => Phrase.balanced options words

/-- A phrase closes its own stretch and those that its switches have opened. -/
theorem Phrase.balanced (options : Options) : ∀ words : Phrase α,
    Action.Balanced (words.actions options) 0
  | .mk _ items => by
    have hitems := Node.balanced_items options items
    have hclosed := (Action.Balanced.replicate_closeSpan (Node.switchCount items)).append
      .closeSpan
    have hsum : Node.switchCount items + (-(Node.switchCount items : ℤ) + -1) + 1 = 0 := by
      omega
    refine .cons rfl (hsum ▸ .openSpan_cons ?_)
    exact hitems.append (.cons rfl hclosed)

/-- Every switch among some items opens one stretch. -/
theorem Node.balanced_items (options : Options) : ∀ items : List (Node α),
    Action.Balanced (Node.itemsActions options items) (Node.switchCount items)
  | [] => .nil
  | node :: rest => by
    have hrest := Node.balanced_items options rest
    have hnode := Node.balanced options node
    by_cases hleaf : node.IsLeaf
    · cases node with
      | leaf _ item =>
          unfold Node.itemsActions Node.switchCount
          cases item.switch? with
          | some span => exact .cons rfl (.openSpan_cons hrest)
          | none =>
              have hitem := item.balanced.append hrest
              rwa [Int.zero_add] at hitem
      | _ => exact hleaf.elim
    · rw [itemsActions_cons hleaf, switchCount_cons hleaf]
      have happend := hnode.append hrest
      rwa [Int.zero_add] at happend

theorem Node.balanced_all (options : Options) : ∀ nodes : List (Node α),
    Action.Balanced (Node.actionsAll options nodes) 0
  | [] => .nil
  | node :: rest => (Node.balanced options node).append_zero (Node.balanced_all options rest)

theorem Node.balanced_lastCaption (options : Options) : ∀ nodes : List (Node α),
    Action.Balanced (Node.lastCaptionActions options nodes) 0
  | [] => .nil
  | node :: rest => by
    have hrest := Node.balanced_lastCaption options rest
    cases hcaption : node.isCaption with
    | true =>
        cases node with
        | caption _ words => exact .ite _ hrest (Phrase.balanced options words).caption
        | _ => cases hcaption
    | false =>
        rw [lastCaptionActions_cons hcaption]
        exact hrest

theorem Node.balanced_parts (options : Options) : ∀ nodes : List (Node α),
    Action.Balanced (Node.partsActions options nodes) 0
  | [] => .nil
  | node :: rest => by
    have hrest := Node.balanced_parts options rest
    have hnode := Node.balanced options node
    cases hcaption : node.isCaption with
    | true =>
        cases node with
        | caption => exact hrest
        | _ => cases hcaption
    | false =>
        rw [partsActions_cons hcaption]
        exact hnode.append_zero hrest

theorem Branch.balanced_all (options : Options) : ∀ arms : List (Branch α),
    Action.Balanced (Branch.actionsAll options arms) 0
  | [] => .nil
  | .mk _ cond body :: rest => by
    have hhead := (Action.Balanced.keyword "if").append_zero (Phrase.balanced options cond)
    have hthen := hhead.append_zero (.word "then")
    exact (hthen.append_zero (Node.balanced_body options body)).append_zero
      (Branch.balanced_all options rest)

theorem Node.balanced_body (options : Options) : ∀ body : Option (Node α),
    Action.Balanced (Node.bodyActions options body) 0
  | none => .nil
  | some node => Node.balanced options node

end

/-! ## The flags hold -/

theorem Html.Page.Stands.closed {page : Page} (h : page.Stands false [] 0) :
    page.lineOpen = false ∧ page.depth = 0 ∧ ∀ element,
      openings element page.fragments.toList = closings element page.fragments.toList := by
  obtain ⟨hopen, hline⟩ := h
  obtain ⟨closed, hclosed⟩ := hopen.divs
  have hlines := hopen.lines
  have hspans := hopen.spans
  have hdivs := balance_div hclosed
  rw [hline] at hlines hspans
  have hbalance : ∀ element, balance element page.fragments.toList = 0 := by
    rintro (_ | _ | _)
    · exact hdivs
    · exact hlines
    · exact hspans
  refine ⟨hline, hopen.depth, fun element => ?_⟩
  have helement := hbalance element
  unfold balance at helement
  omega

theorem Node.passes_root (setup : Setup) (loc : α) (children : List (Node α)) :
    Passes setup (Page.HasOpen [] 0) ((Node.root loc children).actions setup.options)
      (Page.Stands false [] 0) := by
  have hchildren := (Node.balanced_all setup.options children).passes setup [.document] 0
  exact (passes_openDiv rfl).append (hchildren.append (passes_closeDiv rfl))

/-- Whatever tree is rendered, the page is true to its fragments before, between and behind all
actions and where a fault is met: a line is open just if the page says so, and no other one
then, and the depth is the number of blocks that have been opened and not closed. If a
document comes to its end, no line and no block is open, and every element has as many end
tags as start tags. -/
theorem flags_never_drift (setup : Setup) (node : Node α) :
    node.render setup = performAll setup (node.actions setup.options) ∧
    (∀ page ∈ trail setup (node.actions setup.options) {}, page.FlagsHold) ∧
    (trail setup (node.actions setup.options) {}).getLast? = some (node.rendering setup).page ∧
    ∀ loc children, node = .root loc children → (node.rendering setup).fault = none →
      (node.rendering setup).page.lineOpen = false ∧ (node.rendering setup).page.depth = 0 ∧
        ∀ element, openings element (node.rendering setup).page.fragments.toList =
          closings element (node.rendering setup).page.fragments.toList := by
  have hrender := node.render_actions setup
  have hlast : (node.rendering setup).page =
      pageOf (performAll setup (node.actions setup.options) {}) := by
    unfold Node.rendering
    rw [hrender]
    split <;> simp only [pageOf, *]
  refine ⟨hrender, ?_, ?_, ?_⟩
  · exact ((node.balanced setup.options).passes setup [] 0).way {} Page.HasOpen.empty
  · rw [getLast?_trail, hlast]
  · rintro loc children rfl hfault
    have hroot := (Node.passes_root setup loc children).leads {} Page.HasOpen.empty
    unfold Node.rendering at *
    rw [hrender] at *
    cases hrun : performAll setup ((Node.root loc children).actions setup.options) {} with
    | ok u page =>
        rw [hrun] at hroot
        exact hroot.closed
    | error fault page =>
        rw [hrun] at hfault
        cases hfault

/-- A comment that holds an algorithm that holds a call, and behind it a statement that stands in
no block. -/
theorem flags_hold_on_algorithm_in_comment :
    let setup : Setup := ⟨Options.default, delimited⟩
    let words (items : List (Node Unit)) := Phrase.mk () items
    let children : List (Node Unit) :=
      [.comment () (words [.algorithm () [.call () "f" (words [])]]),
        .command () "STATE" (words [.leaf () (.size "tiny")])]
    (((Node.root () children).rendering setup).fault = none) ∧
    (((Node.root () children).rendering setup).page.lineOpen = false) ∧
    openings .span ((Node.root () children).rendering setup).page.fragments.toList =
      closings .span ((Node.root () children).rendering setup).page.fragments.toList := by
  intro setup words children
  have hfault : ((Node.root () children).rendering setup).fault = none := by
    rfl
  have hroot := (flags_never_drift setup (Node.root () children)).2.2.2 () children rfl hfault
  exact ⟨hfault, hroot.1, hroot.2.2 .span⟩

end AlgoBox
