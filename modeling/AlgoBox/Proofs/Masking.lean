import AlgoBox.Node.Equality
import AlgoBox.Proofs.TagSequence

/-!
# Text makes no tags

Whoever writes a source or chooses the texts among the options cannot bring tags into
the output or take any away: the tags are decided by what is left of the tree when
running text, formulas and the names of functions are masked (`Node.mask`), and by the
other options (`tags_eq_of_mask_eq`).

The layout of a tree is compared with that of the masked tree, mark by mark. What
differs is shown between tags and holds no angle bracket, or is a formula in a stretch
of its own (`SameTags`); so sheets on which the same has been written up to such
differences stay that way (`SameMarks`).
-/

namespace AlgoBox

open Html Grammar

variable {α β : Type}

/-! ## Masked trees -/

/-- A leaf without what the user has written as running text or as a formula. -/
def Leaf.mask : Leaf → Leaf
  | .ordinary _ => .ordinary ""
  | .math _ => .math ""
  | item => item

mutual

/-- A tree without annotations, running text, formulas and names of functions. -/
def Node.mask : Node α → Node Unit
  | .bare _ => .bare ()
  | .root _ children => .root () (Node.maskAll children)
  | .algorithm _ children => .algorithm () (Node.maskAll children)
  | .algorithmic _ children => .algorithmic () (Node.maskAll children)
  | .block _ children => .block () (Node.maskAll children)
  | .text words => .text words.mask
  | .caption _ words => .caption () words.mask
  | .comment _ words => .comment () words.mask
  | .command _ name words => .command () name words.mask
  | .call _ _ args => .call () "" args.mask
  | .branch arm => .branch arm.mask
  | .conditional _ branches hasElse elseBody =>
    .conditional () (Branch.maskAll branches) hasElse (Node.maskBody elseBody)
  | .loop _ keyword cond body => .loop () keyword cond.mask (Node.maskBody body)
  | .function _ kind _ params body => .function () kind "" params.mask (Node.maskBody body)
  | .leaf _ item => .leaf () item.mask

/-- A phrase without what is masked. -/
def Phrase.mask : Phrase α → Phrase Unit
  | .mk _ items => .mk () (Node.maskAll items)

/-- An arm without what is masked. -/
def Branch.mask : Branch α → Branch Unit
  | .mk _ cond body => .mk () cond.mask (Node.maskBody body)

/-- Some trees without what is masked. -/
def Node.maskAll : List (Node α) → List (Node Unit)
  | [] => []
  | node :: rest => node.mask :: Node.maskAll rest

/-- Some arms without what is masked. -/
def Branch.maskAll : List (Branch α) → List (Branch Unit)
  | [] => []
  | arm :: rest => arm.mask :: Branch.maskAll rest

/-- A body without what is masked. -/
def Node.maskBody : Option (Node α) → Option (Node Unit)
  | none => none
  | some node => some node.mask

end

theorem Leaf.switch?_mask (item : Leaf) : item.mask.switch? = item.switch? := by
  cases item <;> rfl

theorem Node.isCaption_mask (node : Node α) : node.mask.isCaption = node.isCaption := by
  cases node <;> rfl

theorem any_isCaption_maskAll (nodes : List (Node α)) :
    (Node.maskAll nodes).any Node.isCaption = nodes.any Node.isCaption := by
  induction nodes with
  | nil => rfl
  | cons node rest ih => rw [Node.maskAll, List.any_cons, List.any_cons, ih, Node.isCaption_mask]

theorem Node.captioned_mask (node : Node α) : node.mask.captioned = node.captioned := by
  cases node with
  | algorithm => rw [mask, captioned, captioned, any_isCaption_maskAll]
  | _ => rfl

theorem Node.children_mask (node : Node α) : node.mask.children = Node.maskAll node.children := by
  cases node with
  | text words => cases words; rfl
  | _ => rfl

theorem lastCaption?_maskAll (nodes : List (Node α)) :
    lastCaption? (Node.maskAll nodes) = (lastCaption? nodes).map Phrase.mask := by
  induction nodes with
  | nil => rfl
  | cons node rest ih =>
      cases hnode : node.isCaption with
      | false =>
          rw [Node.maskAll, lastCaption?_cons hnode,
            lastCaption?_cons ((Node.isCaption_mask node).trans hnode), ih]
      | true =>
          cases node with
          | caption loc words =>
              rw [Node.maskAll, Node.mask, lastCaption?_caption, lastCaption?_caption, ih]
              cases lastCaption? rest <;> rfl
          | _ => cases hnode

/-! ## The same tags on two sheets -/

namespace Html

/-- The setups differ in texts that make no tags only. -/
structure Setup.SameTags (setup setup' : Setup) : Prop where
  indent : setup.options.indent = setup'.options.indent
  lineNumber : setup.options.lineNumber = setup'.options.lineNumber
  typeset : ∀ body body',
    Html.SameTags [.math body (setup.typeset body)] [.math body' (setup'.typeset body')]

/-- The pieces of two lines hold the same tags. -/
def SameContent (content content' : List Inline) : Prop :=
  SameTags (Inline.fragmentsAll content) (Inline.fragmentsAll content')

namespace SameContent

variable {piece piece' : Inline} {content content' more more' : List Inline}

theorem nil : SameContent [] [] := SameTags.nil

theorem cons (h : SameTags piece.fragments piece'.fragments) (h' : SameContent content content') :
    SameContent (piece :: content) (piece' :: content') :=
  SameTags.append h h'

theorem append (h : SameContent content content') (h' : SameContent more more') :
    SameContent (content ++ more) (content' ++ more') := by
  unfold SameContent
  rw [Inline.fragmentsAll_append, Inline.fragmentsAll_append]
  exact SameTags.append h h'

end SameContent

theorem SameTags.stretch (span : Span) {content content' : List Inline}
    (h : SameContent content content') :
    SameTags (Inline.stretch span content).fragments (Inline.stretch span content').fragments := by
  exact (SameTags.openSpan span).append (SameTags.append h .closeSpan)

/-- The two sheets hold the same tags, and go on in the same way. -/
structure Sheet.SameTags (s s' : Sheet) : Prop where
  fragments : Html.SameTags s.fragments s'.fragments
  row : s.row.isSome = s'.row.isSome
  count : s.count = s'.count

theorem Sheet.SameTags.boxes {s s' : Sheet} (h : s.SameTags s') :
    Html.SameTags (Box.fragmentsAll s.boxes) (Box.fragmentsAll s'.boxes) := by
  have hending : Html.SameTags Row.ending Row.ending := Html.SameTags.closeSpan.append .closeLine
  rw [fragmentsAll_boxes, fragmentsAll_boxes, ← h.row]
  refine h.fragments.append ?_
  split
  · exact hending
  · exact .nil

/-- From sheets with the same tags the marks lead to sheets with the same tags. -/
def SameMarks (options options' : Options) (depth : Nat) (marks marks' : List Mark) : Prop :=
  ∀ s s' : Sheet, s.SameTags s' →
    (s.writeAll options depth marks).SameTags (s'.writeAll options' depth marks')

end Html

section Marks

variable {setup setup' : Setup} (h : setup.SameTags setup')

include h in
theorem Html.SameTags.row (depth count : Nat) {content content' : List Inline}
    (hcontent : SameContent content content') :
    SameTags (rowAt setup.options depth count content).opened
      (rowAt setup'.options depth count content').opened := by
  have hspan := (SameTags.openSpan .content).append hcontent
  unfold rowAt
  rw [← h.indent, ← h.lineNumber]
  split
  · refine (SameTags.openLine .code).append (.append ?_ hspan)
    split
    · have hnumber := SameTags.lineNumber
        (Em.format (lineNumberOffset setup.options.indent.toBinary64 depth)) (count + 1)
        setup.options.lineNumberPunc setup'.options.lineNumberPunc
      rw [lineNumberAt, lineNumberAt, ← h.indent]
      exact hnumber
    · exact .nil
  · exact (SameTags.openLine _).append hspan

namespace Html.SameMarks

variable {options options' : Options} {depth : Nat} {marks marks' more more' : List Mark}
  {mark mark' : Mark} {content content' : List Inline}

theorem nil : SameMarks options options' depth [] [] := fun _ _ hs => hs

theorem append (hmarks : SameMarks options options' depth marks marks')
    (hmore : SameMarks options options' depth more more') :
    SameMarks options options' depth (marks ++ more) (marks' ++ more') := by
  intro s s' hs
  rw [Sheet.writeAll_append, Sheet.writeAll_append]
  exact hmore _ _ (hmarks s s' hs)

theorem cons (hmark : SameMarks options options' depth [mark] [mark'])
    (hmore : SameMarks options options' depth more more') :
    SameMarks options options' depth (mark :: more) (mark' :: more') :=
  append hmark hmore

include h in
theorem start (hcontent : SameContent content content') :
    SameMarks setup.options setup'.options depth [.start content] [.start content'] := by
  intro s s' hs
  refine ⟨?_, rfl, ?_⟩
  · have hrow := SameTags.row h depth s.count hcontent
    simp only [Sheet.writeAll, Sheet.write, Sheet.fragments_start, ← hs.count]
    exact hs.boxes.append hrow
  · simp only [Sheet.writeAll, Sheet.write, Sheet.start, hs.count]

include h in
theorem join (hcontent : SameContent content content') :
    SameMarks setup.options setup'.options depth [.join content] [.join content'] := by
  intro s s' hs
  have hstart := (start h hcontent : SameMarks _ _ depth _ _) s s' hs
  simp only [Sheet.writeAll, Sheet.write, Sheet.join, ← hs.row] at hstart ⊢
  split
  · rename_i hrow
    refine ⟨?_, ?_, hs.count⟩
    · rw [Sheet.fragments_add hrow, Sheet.fragments_add (hs.row ▸ hrow)]
      exact hs.fragments.append hcontent
    · simp only [Sheet.add, Option.isSome_map, hs.row]
  · exact hstart

include h in
theorem alone (hcontent : SameContent content content') :
    SameMarks setup.options setup'.options depth [.alone content] [.alone content'] := by
  intro s s' hs
  have hstart := (start h hcontent : SameMarks _ _ depth _ _) s s' hs
  refine ⟨?_, rfl, hstart.count⟩
  rw [Sheet.fragments_eq_of_row rfl, Sheet.fragments_eq_of_row rfl]
  simp only [Sheet.writeAll, Sheet.write, Sheet.boxes_close]
  exact hstart.boxes

theorem inside {div : Div}
    (hmarks : SameMarks options options' (depth + div.blocks) marks marks') :
    SameMarks options options' depth [.inside div marks] [.inside div marks'] := by
  intro s s' hs
  have hempty : Sheet.SameTags { count := div.recount s.count } { count := div.recount s'.count } :=
    ⟨.nil, rfl, congrArg div.recount hs.count⟩
  have hinner := hmarks _ _ hempty
  refine ⟨?_, rfl, hinner.count⟩
  rw [Sheet.fragments_eq_of_row rfl, Sheet.fragments_eq_of_row rfl]
  simp only [Sheet.writeAll, Sheet.write, Sheet.boxes_contain, Box.fragmentsAll_append,
    Box.fragmentsAll_singleton]
  exact hs.boxes.append ((SameTags.openDiv div).append (hinner.boxes.append .closeDiv))

end Html.SameMarks

end Marks

/-! ## Phrases -/

/-- The line break is the only escaped character whose markup is a tag. -/
theorem Html.sealed_escapeMarkup (escape : String) : Sealed ((escapeMarkup? escape).getD "") := by
  cases hmarkup : escapeMarkup? escape with
  | none => exact sealed_empty
  | some markup =>
      obtain ⟨before, after, htable, -⟩ := List.lookup_eq_some_iff.1 hmarkup
      have hall : ∀ entry ∈ before ++ (escape, markup) :: after,
          entry.2 = "<br/>" ∨ '<' ∉ entry.2.toList := by
        rw [← htable]
        decide
      rcases hall _ (List.mem_append_right _ List.mem_cons_self) with rfl | hplain
      · simpa using sealed_closed "<br/"
      · exact sealed_of_not_mem hplain

variable {setup setup' : Setup}

theorem Leaf.sameContent (h : setup.SameTags setup') (item : Leaf) :
    SameContent (item.inlines setup) (item.mask.inlines setup') := by
  cases item with
  | ordinary content => exact .cons (.text (Text.not_mem_escape _) (Text.not_mem_escape _)) .nil
  | math body => exact .cons (h.typeset body "") .nil
  | special escape =>
      have hescape := sealed_escapeMarkup escape
      exact .cons (.single hescape hescape rfl) .nil
  | bool keyword => exact .cons (.keyword _) .nil
  | size | font => exact .nil

mutual

theorem Phrase.sameTags (h : setup.SameTags setup') : ∀ words : Phrase α,
    SameTags (words.inline setup).fragments (words.mask.inline setup').fragments
  | .mk _ items => .stretch .phrase (Node.sameContent h items)

theorem Node.sameContent (h : setup.SameTags setup') : ∀ items : List (Node α),
    SameContent (Node.inlines setup items) (Node.inlines setup' (Node.maskAll items))
  | [] => .nil
  | .leaf _ item :: rest => by
    have hrest := Node.sameContent h rest
    rw [Node.maskAll, Node.mask, Node.inlines, Node.inlines, Leaf.switch?_mask]
    cases item.switch? with
    | some span => exact .cons (.stretch span hrest) .nil
    | none => exact (Leaf.sameContent h item).append hrest
  | .text words :: rest => .cons (Phrase.sameTags h words) (Node.sameContent h rest)
  | .bare _ :: rest | .root .. :: rest | .algorithm .. :: rest | .algorithmic .. :: rest
  | .block .. :: rest | .caption .. :: rest | .comment .. :: rest | .command .. :: rest
  | .call .. :: rest | .branch _ :: rest | .conditional .. :: rest | .loop .. :: rest
  | .function .. :: rest => Node.sameContent h rest

end

/-! ## Statements and environments -/

section Trees

variable (h : setup.SameTags setup') {depth : Nat}

include h in
theorem Html.sameContent_applied (name name' : String) (args : Phrase α) :
    SameContent (applied setup name args) (applied setup' name' args.mask) :=
  .cons (.functionName name name') (.cons (.text (by decide) (by decide))
    (.cons (args.sameTags h) (.cons (.text (by decide) (by decide)) .nil)))

include h in
theorem Html.SameMarks.keyword (word : String) :
    SameMarks setup.options setup'.options depth [.start [.keyword word]]
      [.start [.keyword word]] :=
  .start h (.cons (.keyword word) .nil)

theorem Html.sameContent_labelInlines (name : String) :
    SameContent (labelInlines name) (labelInlines name) := by
  unfold labelInlines
  split
  · split
    · exact .cons (.keyword _) .nil
    · exact .nil
  · exact .nil

mutual

theorem Node.sameMarks (h : setup.SameTags setup') : ∀ (node : Node α) (depth : Nat),
    SameMarks setup.options setup'.options depth (node.marks setup) (node.mask.marks setup')
  | .algorithmic _ children, depth => by
    have hchildren := Node.sameMarks_all h children
    rw [Node.mask, Node.marks, Node.marks, ← h.lineNumber]
    exact .inside (hchildren _)
  | .block _ children, depth => by
    have hchildren := Node.sameMarks_all h children
    rw [Node.mask, Node.marks, Node.marks, ← h.indent]
    exact .inside (hchildren _)
  | .command _ name words, depth => by
    have hwords : SameContent [words.inline setup] [words.mask.inline setup'] :=
      .cons (words.sameTags h) .nil
    exact .start h ((sameContent_labelInlines name).append hwords)
  | .call _ name args, depth => .join h (sameContent_applied h name "" args)
  | .comment _ words, depth => by
    have hsymbol : ∀ options : Options,
        '<' ∉ (escapedValue options.commentSymbol ++ " ").toList := by
      intro options
      rw [String.toList_append, List.mem_append, not_or]
      exact ⟨not_mem_escapedValue _, by decide⟩
    have htext := SameTags.text (hsymbol setup.options) (hsymbol setup'.options)
    exact .join h (.cons (.stretch .comment (.cons htext (.cons (words.sameTags h) .nil))) .nil)
  | .conditional _ branches hasElse elseBody, depth => by
    have harms := Branch.sameMarks_all h branches depth
    have helse := Node.sameMarks_body h elseBody depth
    rw [Node.mask, Node.marks, Node.marks]
    refine harms.append (.append ?_ (.keyword h "end if"))
    split
    · exact .cons (.keyword h "else") helse
    · exact .nil
  | .loop _ keyword cond body, depth => by
    have hbody := Node.sameMarks_body h body depth
    have hcontent : SameContent
        [.keyword (Text.lower keyword), cond.inline setup, .keyword "do"]
        [.keyword (Text.lower keyword), cond.mask.inline setup', .keyword "do"] :=
      .cons (.keyword _) (.cons (cond.sameTags h) (.cons (.keyword _) .nil))
    exact .cons (.start h hcontent) (hbody.append (.keyword h _))
  | .function _ kind name params body, depth => by
    have hbody := Node.sameMarks_body h body depth
    have hcontent : SameContent (.keyword (Text.lower kind) :: applied setup name params)
        (.keyword (Text.lower kind) :: applied setup' "" params.mask) :=
      .cons (.keyword _) (sameContent_applied h name "" params)
    exact .cons (.start h hcontent) (hbody.append (.keyword h _))
  | .bare _, _ | .root .., _ | .algorithm .., _ | .text _, _ | .caption .., _ | .branch _, _
  | .leaf .., _ => .nil

theorem Node.sameMarks_all (h : setup.SameTags setup') : ∀ (nodes : List (Node α)) (depth : Nat),
    SameMarks setup.options setup'.options depth (Node.marksAll setup nodes)
      (Node.marksAll setup' (Node.maskAll nodes))
  | [], _ => .nil
  | node :: rest, depth => .append (Node.sameMarks h node depth) (Node.sameMarks_all h rest depth)

theorem Branch.sameMarks_all (h : setup.SameTags setup') :
    ∀ (arms : List (Branch α)) (depth : Nat),
    SameMarks setup.options setup'.options depth (Branch.marksAll setup arms)
      (Branch.marksAll setup' (Branch.maskAll arms))
  | [], _ => .nil
  | .mk _ cond body :: rest, depth => by
    have hbody := Node.sameMarks_body h body depth
    have hrest := Branch.sameMarks_all h rest depth
    have hcontent : SameContent [.keyword "if", cond.inline setup, .keyword "then"]
        [.keyword "if", cond.mask.inline setup', .keyword "then"] :=
      .cons (.keyword _) (.cons (cond.sameTags h) (.cons (.keyword _) .nil))
    exact .cons (.start h hcontent) (hbody.append hrest)

theorem Node.sameMarks_body (h : setup.SameTags setup') :
    ∀ (body : Option (Node α)) (depth : Nat),
    SameMarks setup.options setup'.options depth (Node.marksBody setup body)
      (Node.marksBody setup' (Node.maskBody body))
  | none, _ => .nil
  | some node, depth => Node.sameMarks h node depth

end

include h

theorem Html.sameMarks_caption (number : Nat) (nodes : List (Node α)) :
    SameMarks setup.options setup'.options depth (captionMarks setup number nodes)
      (captionMarks setup' number (Node.maskAll nodes)) := by
  unfold captionMarks
  rw [lastCaption?_maskAll]
  cases lastCaption? nodes with
  | none => exact .nil
  | some words => exact .alone h (.cons (.keyword _) (.cons (words.sameTags h) .nil))

theorem Node.sameMarks_environment (captions : Nat) (node : Node α) :
    SameMarks setup.options setup'.options 0 (node.environmentMarks setup captions)
      (node.mask.environmentMarks setup' captions) := by
  cases node with
  | algorithm loc parts =>
      rw [mask, environmentMarks, environmentMarks, any_isCaption_maskAll]
      exact .inside ((sameMarks_caption h _ parts).append (Node.sameMarks_all h parts _))
  | _ => exact Node.sameMarks h _ 0

theorem Node.sameMarks_environments (captions : Nat) (nodes : List (Node α)) :
    SameMarks setup.options setup'.options 0 (Node.environmentsMarks setup captions nodes)
      (Node.environmentsMarks setup' captions (Node.maskAll nodes)) := by
  induction nodes generalizing captions with
  | nil => exact .nil
  | cons node rest ih =>
      rw [Node.maskAll, Node.environmentsMarks, Node.environmentsMarks, Node.captioned_mask]
      exact (Node.sameMarks_environment h captions node).append (ih _)

/-- A tree and the masked tree are laid out with the same tags. -/
theorem Node.sameTags_layout (tree : Node α) :
    SameTags (Box.fragmentsAll (tree.layout setup))
      (Box.fragmentsAll (tree.mask.layout setup')) := by
  have hempty : Sheet.SameTags {} {} := ⟨.nil, rfl, rfl⟩
  unfold layout
  rw [Node.children_mask]
  exact (Node.sameMarks_environments h 0 tree.children _ _ hempty).boxes

end Trees

/-! ## Sources -/

/-- The tags of an output are decided by the masked tree. -/
theorem Node.Normal.tagsIn_rendering {setup setup' : Setup} [setup.options.Textual]
    {tree : Node α} (htree : tree.Normal) (h : setup.SameTags setup') :
    tagsIn (Fragment.join (tree.rendering setup).page.fragments.toList) =
      tagsAmong (Box.container .document (tree.mask.layout setup')).fragments := by
  have hfragments := htree.rendering_fragments setup (htree.fault_eq_none setup)
  have hdocument : SameTags (Box.container .document (tree.layout setup)).fragments
      (Box.container .document (tree.mask.layout setup')).fragments :=
    (SameTags.openDiv .document).append ((tree.sameTags_layout h).append .closeDiv)
  rw [hfragments, ← Box.merged_fragments, tagsIn_join hdocument.left, hdocument.tags]

/-- The options with other texts in front of comments and behind line numbers. -/
def Options.withTexts (options : Options) (symbol punc : String) : Options :=
  { options with commentSymbol := .text symbol, lineNumberPunc := .text punc }

instance (options : Options) (symbol punc : String) : (options.withTexts symbol punc).Textual :=
  ⟨⟨symbol, rfl⟩, ⟨punc, rfl⟩⟩

theorem tagsIn_of_parse {source : String} {tree : Node Source.Location}
    (hparse : parse source = .ok tree) (options : Options) (symbol punc : String)
    (level : Log.Level) :
    ∃ html : String,
      (renderTree level (options.withTexts symbol punc) none tree).result = .ok html ∧
      tagsIn html = tagsAmong
        (Box.container .document (tree.mask.layout ⟨options, delimited⟩)).fragments := by
  have htree := normal_of_parse hparse
  have hsetup : Setup.SameTags ⟨options.withTexts symbol punc, delimited⟩ ⟨options, delimited⟩ :=
    ⟨rfl, rfl, SameTags.delimited⟩
  have htextual : (Setup.mk (options.withTexts symbol punc) delimited).options.Textual :=
    inferInstanceAs (options.withTexts symbol punc).Textual
  obtain ⟨hresult, -⟩ := htree.renderTree_eq level (options.withTexts symbol punc) none
  have hfault := htree.fault_eq_none ⟨options.withTexts symbol punc, delimited⟩
  refine ⟨_, ?_, htree.tagsIn_rendering hsetup⟩
  rw [hresult]
  unfold Rendering.markup
  rw [Option.getD_none, hfault]
  rfl

/-- With formulas left to the reader's browser, the output has the same tags whatever the
running text, the formulas, the names of functions and the texts among the options are. -/
theorem tags_eq_of_mask_eq {source source' : String} {tree tree' : Node Source.Location}
    (hparse : parse source = .ok tree) (hparse' : parse source' = .ok tree')
    (hmask : tree.mask = tree'.mask) (options : Options) (symbol punc symbol' punc' : String)
    (level level' : Log.Level) :
    ∃ html html' : String,
      (renderTree level (options.withTexts symbol punc) none tree).result = .ok html ∧
      (renderTree level' (options.withTexts symbol' punc') none tree').result = .ok html' ∧
      tagsIn html = tagsIn html' := by
  obtain ⟨html, hhtml, htags⟩ := tagsIn_of_parse hparse options symbol punc level
  obtain ⟨html', hhtml', htags'⟩ := tagsIn_of_parse hparse' options symbol' punc' level'
  refine ⟨html, html', hhtml, hhtml', ?_⟩
  rw [htags, htags', hmask]

/-- A comment, its symbol and a formula that look like tags. -/
theorem tags_eq_beside_markup :
    ∃ tree tree' html html',
      parse "\\begin{algorithmic}\\COMMENT{a$x$}\\end{algorithmic}" = .ok tree ∧
      parse "\\begin{algorithmic}\\COMMENT{<b>$</p>$}\\end{algorithmic}" = .ok tree' ∧
      (renderTree .warning (Options.default.withTexts "//" ":") none tree).result = .ok html ∧
      (renderTree .warning (Options.default.withTexts "<p>" "&") none tree').result = .ok html' ∧
      tagsIn html = tagsIn html' := by
  have hmask : (parse "\\begin{algorithmic}\\COMMENT{a$x$}\\end{algorithmic}").toOption.map
        Node.mask =
      (parse "\\begin{algorithmic}\\COMMENT{<b>$</p>$}\\end{algorithmic}").toOption.map
        Node.mask := by
    rw [parse_of_toList String.toList_ofList, parse_of_toList String.toList_ofList]
    decide +kernel
  obtain ⟨tree, htree⟩ : ∃ tree,
      parse "\\begin{algorithmic}\\COMMENT{a$x$}\\end{algorithmic}" = .ok tree :=
    exists_parse_iff.2 (by decide +kernel)
  obtain ⟨tree', htree'⟩ : ∃ tree,
      parse "\\begin{algorithmic}\\COMMENT{<b>$</p>$}\\end{algorithmic}" = .ok tree :=
    exists_parse_iff.2 (by decide +kernel)
  rw [htree, htree'] at hmask
  obtain ⟨html, html', hhtml, hhtml', htags⟩ := tags_eq_of_mask_eq htree htree'
    (Option.some.inj hmask) .default "//" ":" "<p>" "&" .warning .warning
  exact ⟨tree, tree', html, html', htree, htree', hhtml, hhtml', htags⟩

end AlgoBox
