import AlgoBox.Proofs.Contents
import AlgoBox.Proofs.Independence
import AlgoBox.Proofs.WellNested

/-!
# Captions

An algorithm that owns captions shows the last of them, in the first line of its
container, and the captioned algorithms are numbered from one on in the order of the
source. Which captions an output shows is read off its fragments: the containers of
algorithms with what stands in them (`algorithmsIn`), and the labels of captions wherever
they stand (`captionLabels`). No other label looks like that of a caption.

Statements bring no containers of algorithms, so those of an output are the algorithms of
the document (`Environment.all_showCaptions`). A line that has been closed stays where it
is, whatever is written below it (`Sheet.exists_boxes_writeAll`): this is why a caption
stands in front of everything else.
-/

namespace AlgoBox

open Html Grammar

variable {α β : Type}

namespace Html

/-! ## Captions in a sequence of fragments -/

/-- The label of a caption. -/
def captionLabel (number : Nat) : String := "Algorithm " ++ toString number

/-- The keyword begins like the label of a caption. -/
def isCaptionLabel (word : String) : Bool := "Algorithm ".toList.isPrefixOf word.toList

/-- The label of a caption that a fragment is. -/
def Fragment.captionLabel? : Fragment → Option String
  | keyword word => if isCaptionLabel word then some word else none
  | _ => none

/-- The labels of captions in a sequence of fragments. -/
def captionLabels (fragments : List Fragment) : List String :=
  fragments.filterMap Fragment.captionLabel?

/-- The containers of algorithms in a sequence of fragments: whether each is marked as
captioned, and what stands between its tags. -/
def algorithmsIn : List Fragment → List (Bool × List Fragment)
  | [] => []
  | .openDiv (.algorithm captioned) :: rest => (captioned, untilEnd 0 rest) :: algorithmsIn rest
  | _ :: rest => algorithmsIn rest

/-- The captions that there are, numbered behind a number of others. -/
def numberCaptions : Nat → List (Option β) → List (Option (Nat × β))
  | _, [] => []
  | before, none :: rest => none :: numberCaptions before rest
  | before, some caption :: rest => some (before + 1, caption) :: numberCaptions (before + 1) rest

/-- The line of a caption: behind its label stands what its text alone is rendered to. -/
def captionFragments (setup : Setup) (number : Nat) (words : Phrase α) : List Fragment :=
  .openLine (.hanging (Em.format setup.options.indent.toBinary64)) :: .openSpan .content ::
    .keyword (captionLabel number) ::
      (((Node.text words).rendering setup).page.fragments.toList ++ [.closeSpan, .closeLine])

/-- A container of an algorithm begins with the line of the caption, if there is one, and
is marked accordingly. No other caption stands in it. -/
structure ShowsCaption (setup : Setup) (caption : Option (Nat × Phrase α))
    (algorithm : Bool × List Fragment) : Prop where
  captioned : algorithm.1 = caption.isSome
  first : ∃ rest, captionLabels rest = [] ∧ algorithm.2 =
    caption.elim [] (fun (number, words) => captionFragments setup number words) ++ rest

theorem captionLabels_append (l m : List Fragment) :
    captionLabels (l ++ m) = captionLabels l ++ captionLabels m :=
  List.filterMap_append

theorem captionLabels_merged (fragments : List Fragment) :
    captionLabels (merged fragments) = captionLabels fragments :=
  filterMap_merged (fun _ => rfl) fragments

theorem containers_merged (fragments : List Fragment) :
    containers (merged fragments) = containers fragments :=
  filterMap_merged (fun _ => rfl) fragments

theorem readsContent_captionLabel? : ReadsContent Fragment.captionLabel? := by
  intro f hf
  cases f with
  | keyword => exact absurd trivial hf
  | _ => rfl

theorem captionLabels_stretch (span : Span) (content : List Inline) :
    captionLabels (Inline.stretch span content).fragments =
      captionLabels (Inline.fragmentsAll content) :=
  Inline.filterMap_stretch readsContent_captionLabel? span content

theorem isCaptionLabel_captionLabel (number : Nat) :
    isCaptionLabel (captionLabel number) = true := by
  unfold isCaptionLabel captionLabel
  rw [String.toList_append, List.isPrefixOf_iff_prefix]
  exact List.prefix_append _ _

theorem captionLabel?_captionLabel (number : Nat) :
    (Fragment.keyword (captionLabel number)).captionLabel? = some (captionLabel number) :=
  if_pos (isCaptionLabel_captionLabel number)

theorem not_isCaptionLabel_of_mem {word : String} (h : word ∈ statementLabels) :
    isCaptionLabel word = false := by
  have hall : ∀ word ∈ statementLabels, isCaptionLabel word = false := by decide
  exact hall word h

/-! ## Algorithms in a sequence of fragments -/

/-- No container of an algorithm is among some containers. -/
def NoAlgorithm (divs : List (Option Div)) : Prop := ∀ captioned, some (.algorithm captioned) ∉ divs

theorem NoAlgorithm.append {l m : List (Option Div)} (hl : NoAlgorithm l) (hm : NoAlgorithm m) :
    NoAlgorithm (l ++ m) := fun captioned hmem =>
  (List.mem_append.1 hmem).elim (hl captioned) (hm captioned)

theorem NoAlgorithm.bracketed {div : Div} {inner : List (Option Div)}
    (hdiv : ∀ captioned, div ≠ .algorithm captioned) (h : NoAlgorithm inner) :
    NoAlgorithm (bracketed div inner) := by
  intro captioned hmem
  rw [Html.bracketed, List.mem_cons, List.mem_append, List.mem_singleton] at hmem
  rcases hmem with heq | hmem | heq
  · exact hdiv captioned (Option.some.inj heq).symm
  · exact h captioned hmem
  · cases heq

theorem algorithmsIn_append {fragments : List Fragment} (h : NoAlgorithm (containers fragments))
    (rest : List Fragment) : algorithmsIn (fragments ++ rest) = algorithmsIn rest := by
  induction fragments with
  | nil => rfl
  | cons f fragments ih =>
      rw [containers_cons] at h
      have ih := ih fun captioned hmem => h captioned (List.mem_append_right _ hmem)
      cases f with
      | openDiv div =>
          cases div with
          | algorithm captioned => exact absurd List.mem_cons_self (h captioned)
          | _ => exact ih
      | _ => exact ih

/-- An algorithm in which no other stands. -/
theorem algorithmsIn_container (captioned : Bool) (content : List Box)
    (h : NoAlgorithm (Box.containers content)) (rest : List Fragment) :
    algorithmsIn ((Box.container (.algorithm captioned) content).fragments ++ rest) =
      (captioned, Box.fragmentsAll content) :: algorithmsIn rest := by
  have huntil : untilEnd 0 (Box.fragmentsAll content ++ .closeDiv :: rest) = _ :=
    untilEnd_fragmentsAll content 0 (.closeDiv :: rest)
  rw [Box.fragments, List.cons_append, List.append_assoc]
  show (captioned, untilEnd 0 (_ ++ .closeDiv :: rest)) :: algorithmsIn (_ ++ .closeDiv :: rest) = _
  rw [huntil, algorithmsIn_append h]
  exact congrArg (fun inner => (captioned, inner) :: _) (List.append_nil _)

/-! ## Closed lines stay -/

/-- Nothing is written above what is closed. -/
theorem Sheet.above_prefix_write (options : Options) (depth : Nat) (s : Sheet) (mark : Mark) :
    s.above <+: (s.write options depth mark).above := by
  have hboxes : s.above <+: s.boxes := List.prefix_append _ _
  cases mark with
  | start content => exact hboxes
  | alone content => exact hboxes.trans (List.prefix_append _ _)
  | join content =>
      show s.above <+: (s.join options depth content).above
      unfold join
      split
      · exact List.prefix_refl _
      · exact hboxes
  | inside div marks => exact hboxes.trans (List.prefix_append _ _)

/-- If no line is open, everything is written below what is there. -/
theorem Sheet.exists_boxes_writeAll (options : Options) (depth : Nat) {s : Sheet}
    (h : s.row = none) (marks : List Mark) :
    ∃ more, (s.writeAll options depth marks).boxes = s.boxes ++ more ∧
      Box.contentAll more = Mark.contentAll marks := by
  have habove : ∀ (marks : List Mark) (s : Sheet),
      s.above <+: (s.writeAll options depth marks).above := by
    intro marks
    induction marks with
    | nil => exact fun s => List.prefix_refl _
    | cons mark rest ih =>
        exact fun s => (s.above_prefix_write options depth mark).trans (ih _)
  have hboxes : s.boxes = s.above := by
    unfold boxes
    rw [h]
    exact List.append_nil _
  -- what the line left open at the end adds stands below all the rest
  obtain ⟨more, hmore⟩ := (habove marks s).trans (List.prefix_append _ _)
  have hmore : (s.writeAll options depth marks).boxes = s.boxes ++ more := by
    rw [hboxes]
    exact hmore.symm
  have hcontent := contentAll_writeAll options marks depth s
  rw [hmore, Box.contentAll_append] at hcontent
  exact ⟨more, hmore, List.append_cancel_left hcontent⟩

end Html

/-! ## Statements show no captions -/

section Statements

variable {form : Form} {setup : Setup}

theorem Leaf.captionLabels_inlines {item : Leaf} (h : item.IsKnown) :
    captionLabels (Inline.fragmentsAll (item.inlines setup)) = [] := by
  have hall : ∀ keyword ∈ boolWords, isCaptionLabel (Text.lower keyword) = false := by
    decide +kernel
  cases item with
  | bool keyword =>
      have hlabel : (Fragment.keyword (Text.lower keyword)).captionLabel? = none :=
        if_neg (Bool.eq_false_iff.1 (hall keyword h))
      exact List.filterMap_cons_none hlabel
  | _ => rfl

theorem captionLabels_inlines {items : List (Node α)}
    (h : ∀ item ∈ items, ∀ rest,
      captionLabels (Inline.fragmentsAll (Node.inlines setup rest)) = [] →
        captionLabels (Inline.fragmentsAll (Node.inlines setup (item :: rest))) = []) :
    captionLabels (Inline.fragmentsAll (Node.inlines setup items)) = [] := by
  induction items with
  | nil => rfl
  | cons item rest ih =>
      obtain ⟨hitem, hrest⟩ := List.forall_mem_cons.1 h
      exact hitem rest (ih hrest)

theorem Item.captionLabels_inlines {node : Node α} (h : Item form node) : ∀ rest,
    captionLabels (Inline.fragmentsAll (Node.inlines setup rest)) = [] →
      captionLabels (Inline.fragmentsAll (Node.inlines setup (node :: rest))) = [] := by
  induction h with
  | @leaf _ item hknown _ =>
      intro rest hrest
      rw [Node.inlines]
      cases item.switch? with
      | some span =>
          dsimp only
          rw [Inline.fragmentsAll_singleton, captionLabels_stretch]
          exact hrest
      | none =>
          dsimp only
          rw [Inline.fragmentsAll_append, captionLabels_append, hrest,
            Leaf.captionLabels_inlines hknown]
          rfl
  | group _ _ hitems =>
      intro rest hrest
      rw [Node.inlines, Inline.fragmentsAll, captionLabels_append, hrest, List.append_nil]
      exact (captionLabels_stretch _ _).trans (AlgoBox.captionLabels_inlines hitems)

theorem Words.captionLabels_inline {words : Phrase α} (h : Words form words) :
    captionLabels (words.inline setup).fragments = [] := by
  obtain ⟨hitems, -⟩ := h
  exact (captionLabels_stretch _ _).trans (captionLabels_inlines fun item hitem =>
    (hitems item hitem).captionLabels_inlines)

/-- Content whose labels are those of statements holds no label of a caption. -/
theorem Html.HoldsWords.captionLabels_eq_nil {content : List Inline} {words : List (Phrase α)}
    (h : HoldsWords form setup (· ∈ statementLabels) content words) :
    captionLabels (Inline.fragmentsAll content) = [] := by
  induction h with
  | nil => rfl
  | keyword hword _ ih =>
      have hlabel : (Fragment.keyword _).captionLabel? = none :=
        if_neg (Bool.eq_false_iff.1 (not_isCaptionLabel_of_mem hword))
      exact (List.filterMap_cons_none hlabel).trans ih
  | functionName _ ih => exact ih
  | text _ ih => exact ih
  | phrase hwords _ ih =>
      rw [Inline.fragmentsAll, captionLabels_append, hwords.captionLabels_inline, ih]
      rfl
  | comment _ _ hinner ih =>
      rw [Inline.fragmentsAll, captionLabels_append, captionLabels_stretch, hinner, ih]
      rfl

variable (setup)

mutual

theorem Node.noAlgorithm_marks : ∀ node : Node α,
    NoAlgorithm (Mark.containersAll (node.marks setup))
  | .algorithmic _ children | .block _ children => by
    have hchildren := Node.noAlgorithm_marksAll children
    rw [Node.marks, containersAll_inside]
    exact .bracketed nofun hchildren
  | .conditional _ branches hasElse elseBody => by
    have harms := Branch.noAlgorithm_marksAll branches
    have helse := Node.noAlgorithm_marksBody elseBody
    rw [Node.marks, Mark.containersAll_append, Mark.containersAll_append]
    refine harms.append (.append ?_ nofun)
    split
    · exact helse
    · exact nofun
  | .loop _ _ _ body | .function _ _ _ _ body => by
    have hbody := Node.noAlgorithm_marksBody body
    rw [Node.marks, Mark.containersAll, Mark.containersAll_append]
    exact hbody.append nofun
  | .command .. | .call .. | .comment .. | .bare _ | .root .. | .algorithm .. | .text _
  | .caption .. | .branch _ | .leaf .. => nofun

theorem Node.noAlgorithm_marksAll : ∀ nodes : List (Node α),
    NoAlgorithm (Mark.containersAll (Node.marksAll setup nodes))
  | [] => nofun
  | node :: rest => by
    have hnode := Node.noAlgorithm_marks node
    have hrest := Node.noAlgorithm_marksAll rest
    rw [Node.marksAll, Mark.containersAll_append]
    exact hnode.append hrest

theorem Branch.noAlgorithm_marksAll : ∀ arms : List (Branch α),
    NoAlgorithm (Mark.containersAll (Branch.marksAll setup arms))
  | [] => nofun
  | .mk _ _ body :: rest => by
    have hbody := Node.noAlgorithm_marksBody body
    have hrest := Branch.noAlgorithm_marksAll rest
    rw [Branch.marksAll, Mark.containersAll, Mark.containersAll_append]
    exact hbody.append hrest

theorem Node.noAlgorithm_marksBody : ∀ body : Option (Node α),
    NoAlgorithm (Mark.containersAll (Node.marksBody setup body))
  | none => nofun
  | some node => Node.noAlgorithm_marks node

end

end Statements

/-! ## The caption of an algorithm -/

section Algorithms

variable (setup : Setup)

/-- What a phrase alone is rendered to. -/
theorem Words.rendering_text {words : Phrase α} (h : Words .normal words) :
    ((Node.text words).rendering setup).page.fragments.toList =
      merged (words.inline setup).fragments := by
  obtain ⟨⟨⟩, page, hpage⟩ := (h.completes setup).completes {}
  have hempty : Page.Shows [] ⟨0, false, 0, 0⟩ {} := ⟨⟨[], rfl, not_endsText_nil, rfl⟩, rfl⟩
  have hshows := h.emits setup [] ⟨0, false, 0, 0⟩ {} () page hempty hpage
  have hends : ¬EndsText (words.inline setup).fragments := by
    cases words
    exact Inline.endsText_fragments id
  unfold Node.rendering
  rw [Node.render, hpage]
  exact (hshows.written hends).fragments

/-- The line of a caption on the page. -/
theorem Words.captionFragments_eq {words : Phrase α} (h : Words .normal words) (number : Nat) :
    merged (Box.fragmentsAll [.line ⟨.hanging (Em.format setup.options.indent.toBinary64), none,
      [.keyword (captionLabel number), words.inline setup]⟩]) =
        captionFragments setup number words := by
  have htext := h.rendering_text setup
  rw [Box.fragmentsAll_singleton, captionFragments, htext]
  show merged (.openLine _ :: .openSpan .content :: .keyword (captionLabel number) ::
    (((words.inline setup).fragments ++ []) ++ [.closeSpan, .closeLine])) = _
  rw [List.append_nil, merged_cons id, merged_cons id, merged_cons id,
    merged_append fun _ hstarts => (startsText_cons .closeSpan _).1 hstarts]
  rfl

/-- The line of a caption alone is closed at its end. -/
theorem Part.writeAll_captionMarks {parts : List (Node α)}
    (h : ∀ part ∈ parts, Part .normal part) (number : Nat) :
    (Sheet.writeAll setup.options 0 {} (captionMarks setup number parts)).row = none ∧
      merged (Box.fragmentsAll
        (Sheet.writeAll setup.options 0 {} (captionMarks setup number parts)).boxes) =
          (lastCaption? parts).elim [] (captionFragments setup number) := by
  unfold captionMarks
  cases hcaption : lastCaption? parts with
  | none => exact ⟨rfl, rfl⟩
  | some words =>
      have hline := (Part.words_lastCaption h hcaption).captionFragments_eq setup number
      exact ⟨rfl, hline⟩

/-- The marks of an algorithm give a container that begins with its caption. -/
theorem Part.showsCaption {parts : List (Node α)} (h : ∀ part ∈ parts, Part .normal part)
    (number : Nat) :
    ShowsCaption setup ((lastCaption? parts).map (number, ·)) (parts.any Node.isCaption,
      merged (Box.fragmentsAll (Sheet.writeAll setup.options 0 {}
        (captionMarks setup number parts ++ Node.marksAll setup parts)).boxes)) := by
  obtain ⟨hrow, hline⟩ := Part.writeAll_captionMarks setup h number
  -- the line of the caption is closed, so all other parts stand below it
  obtain ⟨more, hmore, hcontent⟩ :=
    Sheet.exists_boxes_writeAll setup.options 0 hrow (Node.marksAll setup parts)
  have hseam : ¬EndsText (Box.fragmentsAll
      (Sheet.writeAll setup.options 0 {} (captionMarks setup number parts)).boxes) :=
    Box.not_endsText_fragmentsAll not_endsText_nil _
  refine ⟨by rw [Option.isSome_map, isSome_lastCaption?], merged (Box.fragmentsAll more), ?_, ?_⟩
  · have hlabels : captionLabels (Inline.fragmentsAll
        (Mark.contentAll (Node.marksAll setup parts))) = [] :=
      (Part.holdsWords h).captionLabels_eq_nil
    rw [captionLabels_merged, ← hlabels, ← hcontent]
    exact Box.filterMap_fragmentsAll readsContent_captionLabel? more
  · rw [Sheet.writeAll_append, hmore, Box.fragmentsAll_append,
      merged_append fun hends => absurd hends hseam, hline]
    cases lastCaption? parts <;> rfl

end Algorithms

/-! ## The captions of a document -/

/-- Some fragments hold the containers of algorithms with these captions, and no label of
another caption. -/
structure Html.ShowsCaptions (setup : Setup) (captions : List (Option (Nat × Phrase α)))
    (fragments : List Fragment) : Prop where
  algorithms : ∃ found, List.Forall₂ (ShowsCaption setup) captions found ∧
    ∀ rest, algorithmsIn (fragments ++ rest) = found ++ algorithmsIn rest
  labels : captionLabels fragments =
    captions.filterMap (Option.map fun (number, _) => captionLabel number)

section Documents

variable {setup : Setup} {captions captions' : List (Option (Nat × Phrase α))}
  {fragments fragments' : List Fragment}

namespace Html.ShowsCaptions

theorem nil : ShowsCaptions setup ([] : List (Option (Nat × Phrase α))) [] :=
  ⟨⟨[], .nil, fun _ => rfl⟩, rfl⟩

theorem append (h : ShowsCaptions setup captions fragments)
    (h' : ShowsCaptions setup captions' fragments') :
    ShowsCaptions setup (captions ++ captions') (fragments ++ fragments') where
  algorithms := by
    obtain ⟨found, hfound, halgorithms⟩ := h.algorithms
    obtain ⟨found', hfound', halgorithms'⟩ := h'.algorithms
    refine ⟨found ++ found', List.rel_append hfound hfound', fun rest => ?_⟩
    rw [List.append_assoc, halgorithms, halgorithms', List.append_assoc]
  labels := by
    rw [captionLabels_append, h.labels, h'.labels, List.filterMap_append]

end Html.ShowsCaptions

/-- The captions of some environments are those of the first one and of the rest, which
are numbered behind it. -/
theorem numberCaptions_cons (before : Nat) (loc : α) (node : Node α) (rest : List (Node α)) :
    numberCaptions before (Node.root loc (node :: rest)).captions =
      numberCaptions before (Node.root loc [node]).captions ++
        numberCaptions (before + node.captioned) (Node.root loc rest).captions := by
  cases node with
  | algorithm _ parts =>
      have hcaptioned := isSome_lastCaption? parts
      show numberCaptions before (lastCaption? parts :: _) =
        numberCaptions before [lastCaption? parts] ++ _
      rw [Node.captioned, ← hcaptioned]
      cases lastCaption? parts <;> rfl
  | _ => rfl

variable (setup)

theorem Words.captionLabels_captionFragments {words : Phrase α} (h : Words .normal words)
    (number : Nat) :
    captionLabels (captionFragments setup number words) = [captionLabel number] := by
  have htext : captionLabels ((Node.text words).rendering setup).page.fragments.toList = [] := by
    rw [h.rendering_text setup, captionLabels_merged]
    exact h.captionLabels_inline
  have hlast : captionLabels (((Node.text words).rendering setup).page.fragments.toList ++
      [.closeSpan, .closeLine]) = [] := by
    rw [captionLabels_append, htext]
    rfl
  show captionLabels (.keyword (captionLabel number) :: _) = _
  rw [captionLabels, List.filterMap_cons_some (captionLabel?_captionLabel number)]
  exact congrArg (captionLabel number :: ·) hlast

/-- What stands in the container of an algorithm shows the label of its caption only. -/
theorem Part.captionLabels_of_showsCaption {parts : List (Node α)}
    (h : ∀ part ∈ parts, Part .normal part) {number : Nat} {captioned : Bool}
    {content : List Fragment}
    (hshows : ShowsCaption setup ((lastCaption? parts).map (number, ·)) (captioned, content)) :
    captionLabels content = (lastCaption? parts).toList.map fun _ => captionLabel number := by
  obtain ⟨rest, hrest, hcontent⟩ := hshows.first
  obtain rfl : content = _ := hcontent
  rw [captionLabels_append, hrest, List.append_nil]
  cases hcaption : lastCaption? parts with
  | none => rfl
  | some words =>
      exact (Part.words_lastCaption h hcaption).captionLabels_captionFragments setup number

/-- Statements alone show no caption. -/
theorem Algorithmic.showsCaptions {node : Node α} (h : Algorithmic .normal node) :
    ShowsCaptions setup ([] : List (Option (Nat × Phrase α)))
      (merged (Box.fragmentsAll (Sheet.writeAll setup.options 0 {} (node.marks setup)).boxes)) := by
  have hcontainers : containers (Box.fragmentsAll
      (Sheet.writeAll setup.options 0 {} (node.marks setup)).boxes) = _ :=
    Sheet.containers_writeAll setup.options (node.marks setup) 0 {}
  have hcontent := Sheet.contentAll_writeAll setup.options (node.marks setup) 0 {}
  generalize (Sheet.writeAll setup.options 0 {} (node.marks setup)).boxes = content
    at hcontainers hcontent
  have hnone : NoAlgorithm (containers (merged (Box.fragmentsAll content))) := by
    rw [containers_merged, hcontainers]
    exact Node.noAlgorithm_marks setup node
  refine ⟨⟨[], .nil, algorithmsIn_append hnone⟩, ?_⟩
  rw [captionLabels_merged, captionLabels,
    Box.filterMap_fragmentsAll readsContent_captionLabel?, hcontent]
  exact h.holdsWords.captionLabels_eq_nil

/-- The container of an algorithm shows its caption. -/
theorem Part.showsCaptions {parts : List (Node α)} (h : ∀ part ∈ parts, Part .normal part)
    (number : Nat) :
    ShowsCaptions setup [(lastCaption? parts).map (number, ·)]
      (merged (Box.fragmentsAll [.container (.algorithm (parts.any Node.isCaption))
        (Sheet.writeAll setup.options 0 {}
          (captionMarks setup number parts ++ Node.marksAll setup parts)).boxes])) := by
  have hshows := Part.showsCaption setup h number
  have hlabels := Part.captionLabels_of_showsCaption setup h hshows
  have hcontainers : containers (Box.fragmentsAll (Sheet.writeAll setup.options 0 {}
      (captionMarks setup number parts ++ Node.marksAll setup parts)).boxes) = _ :=
    Sheet.containers_writeAll setup.options
      (captionMarks setup number parts ++ Node.marksAll setup parts) 0 {}
  generalize (Sheet.writeAll setup.options 0 {}
    (captionMarks setup number parts ++ Node.marksAll setup parts)).boxes = content
    at hshows hlabels hcontainers
  have hnone : NoAlgorithm (Box.containers (Box.mergeAll content)) := by
    rw [Box.containers, ← Box.merged_fragmentsAll, containers_merged, hcontainers,
      Mark.containersAll_append, containersAll_captionMarks]
    exact Node.noAlgorithm_marksAll setup parts
  rw [Box.merged_fragmentsAll] at hshows hlabels
  rw [Box.fragmentsAll_singleton, Box.merged_fragments, Box.merge]
  refine ⟨⟨_, .cons hshows .nil, algorithmsIn_container _ _ hnone⟩, ?_⟩
  show captionLabels (_ ++ [.closeDiv]) = _
  rw [captionLabels_append, hlabels]
  cases lastCaption? parts <;> rfl

/-- The page of an environment alone shows its caption. -/
theorem Environment.showsCaptions {node : Node α} (h : Environment .normal node) (loc : α)
    (before : Nat) :
    ShowsCaptions setup (numberCaptions before (Node.root loc [node]).captions)
      (merged (Box.fragmentsAll
        (Sheet.writeAll setup.options 0 {} (node.environmentMarks setup before)).boxes)) := by
  cases h with
  | algorithmic halgorithmic =>
      have hshows := halgorithmic.showsCaptions setup
      obtain ⟨_, _⟩ := halgorithmic
      exact hshows
  | @algorithm _ parts hparts =>
      -- without a caption the number is not used
      have hshows := Part.showsCaptions setup hparts (before + 1)
      have hcaption : numberCaptions before [lastCaption? parts] =
          [(lastCaption? parts).map (before + 1, ·)] := by
        cases lastCaption? parts <;> rfl
      rw [← hcaption] at hshows
      exact hshows

/-- The boxes of some environments show their captions. -/
theorem Environment.all_showCaptions {nodes : List (Node α)}
    (h : ∀ node ∈ nodes, Environment .normal node) (loc : α) (before : Nat) (s : Sheet) :
    ∃ more, (s.writeAll setup.options 0 (Node.environmentsMarks setup before nodes)).boxes =
        s.boxes ++ more ∧
      ShowsCaptions setup (numberCaptions before (Node.root loc nodes).captions)
        (merged (Box.fragmentsAll more)) := by
  induction nodes generalizing before s with
  | nil => exact ⟨[], (List.append_nil _).symm, .nil⟩
  | cons node rest ih =>
      obtain ⟨hnode, hrest⟩ := List.forall_mem_cons.1 h
      have hfirst := hnode.showsCaptions setup loc before
      -- the boxes of an environment do not depend on those above them
      have hboxes := hnode.boxes_write setup before s
      obtain ⟨more, hmore, hshows⟩ := ih hrest (before + node.captioned)
        (s.writeAll setup.options 0 (node.environmentMarks setup before))
      generalize (Sheet.writeAll setup.options 0 {} (node.environmentMarks setup before)).boxes =
        first at hfirst hboxes
      refine ⟨first ++ more, ?_, ?_⟩
      · rw [Node.environmentsMarks, Sheet.writeAll_append, hmore, hboxes, List.append_assoc]
      · have hseam : ¬EndsText (Box.fragmentsAll first) :=
          Box.not_endsText_fragmentsAll not_endsText_nil first
        rw [numberCaptions_cons, Box.fragmentsAll_append,
          merged_append fun hends => absurd hends hseam]
        exact hfirst.append hshows

/-- What is read is rendered with the captions of its algorithms. -/
theorem Node.Normal.showsCaptions {tree : Node α} (h : tree.Normal)
    (hfault : (tree.rendering setup).fault = none) :
    List.Forall₂ (ShowsCaption setup) (numberCaptions 0 tree.captions)
      (algorithmsIn (tree.rendering setup).page.fragments.toList) ∧
    captionLabels (tree.rendering setup).page.fragments.toList =
      (numberCaptions 0 tree.captions).filterMap
        (Option.map fun (number, _) => captionLabel number) := by
  have hfragments := h.rendering_fragments setup hfault
  obtain @⟨loc, children, henvironments⟩ := h
  obtain ⟨more, hmore, hshows⟩ := Environment.all_showCaptions setup henvironments loc 0 {}
  obtain rfl : _ = more := hmore
  obtain ⟨⟨found, hfound, halgorithms⟩, hlabels⟩ := hshows
  rw [hfragments, Box.merge, Box.fragments, ← Box.merged_fragmentsAll]
  refine ⟨?_, ?_⟩
  · show List.Forall₂ _ _ (algorithmsIn (_ ++ [.closeDiv]))
    have hall := halgorithms [.closeDiv]
    rw [Node.layout, Node.children, hall]
    exact (List.append_nil found).symm ▸ hfound
  · show captionLabels (_ ++ [.closeDiv]) = _
    rw [captionLabels_append, Node.layout, Node.children, hlabels]
    exact List.append_nil _

end Documents

/-! ## Sources -/

/-- What a source is read as is rendered with one caption for each algorithm that owns
any, in the first line of its container. The captions are numbered in the order of the
source, and no other label of a caption is in the output. Of the captions of an algorithm
only the last one counts, and it does not matter where it stands. -/
theorem captions_first_and_numbered {source : String} {tree : Node Source.Location}
    (hparse : parse source = .ok tree) (setup : Setup) :
    ((∃ s, setup.options.commentSymbol = .text s) → (∃ s, setup.options.lineNumberPunc = .text s) →
      (tree.rendering setup).fault = none) ∧
    ((tree.rendering setup).fault = none →
      (tree.rendering setup).markup =
        .ok (Fragment.join (tree.rendering setup).page.fragments.toList) ∧
      List.Forall₂ (ShowsCaption setup) (numberCaptions 0 tree.captions)
        (algorithmsIn (tree.rendering setup).page.fragments.toList) ∧
      captionLabels (tree.rendering setup).page.fragments.toList =
        (numberCaptions 0 tree.captions).filterMap
          (Option.map fun (number, _) => captionLabel number)) ∧
    tree.displayed.rendering setup = tree.rendering setup := by
  have hnormal := normal_of_parse hparse
  refine ⟨fun hsymbol hpunc => ?_, fun hfault => ⟨?_, hnormal.showsCaptions setup hfault⟩,
    tree.rendering_displayed setup⟩
  · have : setup.options.Textual := ⟨hsymbol, hpunc⟩
    exact hnormal.fault_eq_none setup
  · unfold Rendering.markup
    rw [hfault]

/-- An algorithm without captions, one with two of them, of which the last stands behind
the statements, and one that is all caption. -/
theorem captions_numbered_three_algorithms :
    let source := "\\begin{algorithm}\\end{algorithm}\\begin{algorithm}\\caption{x}" ++
      "\\begin{algorithmic}\\STATE b\\end{algorithmic}\\caption{y}\\end{algorithm}" ++
      "\\begin{algorithm}\\caption{z}\\end{algorithm}"
    let setup : Setup := ⟨.default, delimited⟩
    let line (label text : String) : List Fragment :=
      [.openLine (.hanging "1.4"), .openSpan .content, .keyword label, .openSpan .phrase,
        .text text, .closeSpan, .closeSpan, .closeLine]
    ∃ tree, parse source = .ok tree ∧
      let fragments := (tree.rendering setup).page.fragments.toList
      (numberCaptions 0 tree.captions).map (Option.map fun (number, words) =>
        (number, words.plain)) = [none, some (1, "y"), some (2, "z")] ∧
      List.Forall₂ (ShowsCaption setup) (numberCaptions 0 tree.captions) (algorithmsIn fragments) ∧
      (algorithmsIn fragments).map (fun (captioned, inner) => (captioned, inner.take 8)) =
        [(false, []), (true, line "Algorithm 1" "y"), (true, line "Algorithm 2" "z")] ∧
      captionLabels fragments = ["Algorithm 1", "Algorithm 2"] ∧
      tree.displayed.rendering setup = tree.rendering setup := by
  intro source setup line
  have hcaptions : (parse source).toOption.any (fun tree =>
      (numberCaptions 0 tree.captions).map (Option.map fun (number, words) =>
          (number, words.plain)) = [none, some (1, "y"), some (2, "z")] &&
        (algorithmsIn (tree.rendering setup).page.fragments.toList).map
          (fun (captioned, inner) => (captioned, inner.take 8)) =
            [(false, []), (true, line "Algorithm 1" "y"), (true, line "Algorithm 2" "z")] &&
        (numberCaptions 0 tree.captions).filterMap
          (Option.map fun (number, _) => captionLabel number) =
            ["Algorithm 1", "Algorithm 2"]) = true := by
    have htext : source.toList = _ := toList_append_append_ofList
    rw [parse_of_toList htext]
    decide +kernel
  cases htree : parse source with
  | error fault =>
      rw [htree] at hcaptions
      cases hcaptions
  | ok tree =>
      rw [htree] at hcaptions
      simp only [Except.toOption, Option.any_some, Bool.and_eq_true, decide_eq_true_eq]
        at hcaptions
      obtain ⟨⟨hplain, hfirst⟩, hnumbers⟩ := hcaptions
      obtain ⟨hfault, hshown, hdisplayed⟩ := captions_first_and_numbered htree setup
      obtain ⟨-, hshows, hlabels⟩ := hshown (hfault ⟨_, rfl⟩ ⟨_, rfl⟩)
      exact ⟨tree, rfl, hplain, hshows, hfirst, hlabels.trans hnumbers, hdisplayed⟩

end AlgoBox
