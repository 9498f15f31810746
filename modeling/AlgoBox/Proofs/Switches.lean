import AlgoBox.Proofs.Contents
import AlgoBox.Proofs.RenderTotal

/-!
# Switches of font and size

What a reader sees of an output: every piece of content, text character by character,
with the stretches of a line that are open around it. They are read off the tags of the
output alone (`shownIn`), start tags pushing a stretch and end tags dropping one.

A stretch that a switch opens holds the rest of its phrase and nothing else
(`Node.shownAll_inlines`), so around the leaves of a phrase stand just the switches that
are in force there (`Phrase.styled`), and around everything else none
(`switches_scoped`).
-/

namespace AlgoBox

open Html Grammar

variable {α : Type}

namespace Html

/-! ## Pieces of content -/

/-- A piece of content with the stretches open around it, the innermost one first. -/
structure Shown where
  around : List Span
  piece : Fragment

/-- The stretch is opened by a switch. -/
def Span.isSwitch : Span → Bool
  | .font _ | .size _ => true
  | .content | .comment | .phrase => false

/-- The switches among some stretches, the innermost stretch first: the switches come
in the opposite order. -/
def switchesOf (around : List Span) : List Span := (around.filter Span.isSwitch).reverse

/-- The switches around a piece, from the outermost to the innermost. -/
def Shown.switches (shown : Shown) : List Span := switchesOf shown.around

/-- The piece stands in a phrase. -/
def Shown.inPhrase (shown : Shown) : Bool := .phrase ∈ shown.around

/-- The pieces of content of a fragment: text is cut into characters, and tags are no
content. -/
def Fragment.pieces : Fragment → List Fragment
  | .text markup => markup.toList.map fun c => .text (String.singleton c)
  | .openDiv _ | .closeDiv | .openLine _ | .closeLine | .openSpan _ | .closeSpan => []
  | fragment => [fragment]

/-- The pieces of content in a sequence of fragments that stands inside some
stretches. -/
def shownIn : List Span → List Fragment → List Shown
  | _, [] => []
  | around, .openSpan span :: rest => shownIn (span :: around) rest
  | around, .closeSpan :: rest => shownIn around.tail rest
  | around, fragment :: rest => fragment.pieces.map (Shown.mk around) ++ shownIn around rest

theorem shownIn_attach (around : List Span) (f : Fragment) (rest : List Fragment) :
    shownIn around (attach f rest) = shownIn around (f :: rest) := by
  unfold attach
  split
  · simp only [shownIn, Fragment.pieces, String.toList_append, List.map_append,
      List.append_assoc]
  · rfl

/-- Joining text does not change what is shown. -/
theorem shownIn_merged (around : List Span) (fragments : List Fragment) :
    shownIn around (merged fragments) = shownIn around fragments := by
  induction fragments generalizing around with
  | nil => rfl
  | cons f rest ih =>
      rw [merged, shownIn_attach]
      cases f with
      | openSpan span => exact ih (span :: around)
      | closeSpan => exact ih around.tail
      | _ => simp only [shownIn, ih]

/-! ## Pieces of content in boxes -/

mutual

/-- The pieces of content in a piece of a line that stands inside some stretches. -/
def Inline.shown (around : List Span) : Inline → List Shown
  | .stretch span content => Inline.shownAll (span :: around) content
  | piece => (piece.fragments.flatMap Fragment.pieces).map (Shown.mk around)

/-- The pieces of content in some pieces of a line. -/
def Inline.shownAll (around : List Span) : List Inline → List Shown
  | [] => []
  | piece :: rest => piece.shown around ++ Inline.shownAll around rest

end

theorem Inline.shownAll_append (around : List Span) (l m : List Inline) :
    shownAll around (l ++ m) = shownAll around l ++ shownAll around m := by
  induction l with
  | nil => rfl
  | cons piece rest ih => simp only [List.cons_append, shownAll, ih, List.append_assoc]

mutual

/-- What stands inside stretches stays inside them. -/
theorem Inline.suffix_around : ∀ (piece : Inline) (around : List Span),
    ∀ shown ∈ piece.shown around, around <:+ shown.around
  | .stretch span content, around, shown, h =>
    (List.suffix_cons span around).trans
      (Inline.suffix_around_all content (span :: around) shown h)
  | .text _, around, _, h | .math .., around, _, h | .keyword _, around, _, h
  | .functionName _, around, _, h => by
    obtain ⟨_, -, rfl⟩ := List.mem_map.1 h
    exact List.suffix_refl around

theorem Inline.suffix_around_all : ∀ (content : List Inline) (around : List Span),
    ∀ shown ∈ shownAll around content, around <:+ shown.around
  | [], _, _, h => absurd h List.not_mem_nil
  | piece :: rest, around, shown, h => by
    rcases List.mem_append.1 h with h | h
    · exact Inline.suffix_around piece around shown h
    · exact Inline.suffix_around_all rest around shown h

end

mutual

theorem shownIn_inline : ∀ (piece : Inline) (around : List Span) (rest : List Fragment),
    shownIn around (piece.fragments ++ rest) = piece.shown around ++ shownIn around rest
  | .stretch span content, around, rest => by
    have hcontent := shownIn_inlines content (span :: around) (.closeSpan :: rest)
    rw [Inline.fragments, List.cons_append, List.append_assoc]
    exact hcontent
  | .text markup, around, rest => by
    show _ = ((Fragment.text markup).pieces ++ []).map _ ++ _
    rw [List.append_nil]
    rfl
  | .math .., _, _ | .keyword _, _, _ | .functionName _, _, _ => rfl

/-- The stretches opened in pieces of a line are closed in them. -/
theorem shownIn_inlines : ∀ (content : List Inline) (around : List Span) (rest : List Fragment),
    shownIn around (Inline.fragmentsAll content ++ rest) =
      Inline.shownAll around content ++ shownIn around rest
  | [], _, _ => rfl
  | piece :: more, around, rest => by
    have hpiece := shownIn_inline piece around (Inline.fragmentsAll more ++ rest)
    have hmore := shownIn_inlines more around rest
    rw [Inline.fragmentsAll, List.append_assoc, hpiece, hmore, Inline.shownAll,
      List.append_assoc]

end

/-- The piece stands in a stretch. Only the numbers of lines do not. -/
def Shown.inSpan (shown : Shown) : Bool := !shown.around.isEmpty

theorem shownIn_row (row : Row) (rest : List Fragment) :
    (shownIn [] (row.fragments ++ rest)).filter Shown.inSpan =
      Inline.shownAll [.content] row.content ++ (shownIn [] rest).filter Shown.inSpan := by
  have hnumber : ∀ more : List Fragment,
      (shownIn [] (row.number.toList.map LineNumber.fragment ++ more)).filter Shown.inSpan =
        (shownIn [] more).filter Shown.inSpan := by
    intro more
    cases row.number <;> rfl
  have hall : (Inline.shownAll [.content] row.content).filter Shown.inSpan =
      Inline.shownAll [.content] row.content := by
    rw [List.filter_eq_self]
    intro shown hshown
    have hmem := (Inline.suffix_around_all _ _ shown hshown).subset (List.mem_singleton_self _)
    rw [Shown.inSpan, List.isEmpty_eq_false_iff.2 (List.ne_nil_of_mem hmem)]
    rfl
  have hcontent := shownIn_inlines row.content [.content] (Row.ending ++ rest)
  rw [Row.fragments, Row.opened, List.append_assoc, List.cons_append, List.append_assoc]
  show (shownIn [] (_ ++ _)).filter _ = _
  rw [hnumber, List.cons_append]
  show (shownIn [.content] (_ ++ _)).filter _ = _
  rw [hcontent, List.filter_append, hall]
  rfl

mutual

theorem shownIn_box : ∀ (box : Box) (rest : List Fragment),
    (shownIn [] (box.fragments ++ rest)).filter Shown.inSpan =
      Inline.shownAll [.content] box.content ++ (shownIn [] rest).filter Shown.inSpan
  | .line row, rest => shownIn_row row rest
  | .container div inner, rest => by
    have hinner := shownIn_boxes inner (.closeDiv :: rest)
    rw [Box.fragments, List.cons_append, List.append_assoc]
    exact hinner

/-- Of boxes is shown what their lines hold. -/
theorem shownIn_boxes : ∀ (content : List Box) (rest : List Fragment),
    (shownIn [] (Box.fragmentsAll content ++ rest)).filter Shown.inSpan =
      Inline.shownAll [.content] (Box.contentAll content) ++
        (shownIn [] rest).filter Shown.inSpan
  | [], _ => rfl
  | box :: more, rest => by
    have hbox := shownIn_box box (Box.fragmentsAll more ++ rest)
    have hmore := shownIn_boxes more rest
    rw [Box.fragmentsAll, List.append_assoc, hbox, hmore, Box.contentAll,
      Inline.shownAll_append, List.append_assoc]

end

end Html

/-! ## Pieces of content in phrases -/

/-- A piece of content with the switches around it. -/
def Html.Shown.styled (shown : Shown) : List Span × Fragment := (shown.switches, shown.piece)

/-- What is shown of a leaf, with the switches in force there. -/
def Styled.shown (setup : Setup) (styled : Styled) : List (List Html.Span × Fragment) :=
  ((Inline.fragmentsAll (styled.leaf.inlines setup)).flatMap Fragment.pieces).map
    (styled.switches, ·)

/-- What is shown of a phrase. -/
def Phrase.shown (setup : Setup) (phrase : Phrase α) : List (List Html.Span × Fragment) :=
  (phrase.styled []).flatMap (Styled.shown setup)

section Phrases

variable (setup : Setup)

theorem Leaf.shownAll_inlines (item : Leaf) (around : List Html.Span) :
    (Inline.shownAll around (item.inlines setup)).map Shown.styled =
      Styled.shown setup ⟨switchesOf around, item⟩ := by
  cases item with
  | ordinary | special =>
      simp [Leaf.inlines, Inline.shownAll, Inline.shown, Inline.fragments, Styled.shown,
        Inline.fragmentsAll, Shown.styled, Shown.switches]
  | _ => rfl

/-- A switch opens a stretch of that name. -/
theorem Leaf.isSwitch_of_switch? {item : Leaf} {switch : Html.Span}
    (h : item.switch? = some switch) : switch.isSwitch = true := by
  cases item with
  | size name | font name =>
      obtain rfl := Option.some.inj h
      rfl
  | _ => cases h

theorem Html.switchesOf_cons_switch {switch : Html.Span} (h : switch.isSwitch = true)
    (around : List Html.Span) : switchesOf (switch :: around) = switchesOf around ++ [switch] := by
  rw [switchesOf, List.filter_cons_of_pos h, List.reverse_cons]
  rfl

mutual

theorem Phrase.shown_inline : ∀ (phrase : Phrase α) (around : List Html.Span),
    ((phrase.inline setup).shown around).map Shown.styled =
      (phrase.styled (switchesOf around)).flatMap (Styled.shown setup)
  | .mk _ items, around => Node.shownAll_inlines items (.phrase :: around)

/-- The leaves of some items are shown behind the switches that stand in front of them. -/
theorem Node.shownAll_inlines : ∀ (items : List (Node α)) (around : List Html.Span),
    (Inline.shownAll around (Node.inlines setup items)).map Shown.styled =
      (Node.styled (switchesOf around) items).flatMap (Styled.shown setup)
  | [], _ => rfl
  | .leaf _ item :: rest, around => by
    rw [Node.inlines, Node.styled]
    cases hswitch : item.switch? with
    | some switch =>
        -- the rest of the phrase stands inside the stretch that the switch opens
        have hrest := Node.shownAll_inlines rest (switch :: around)
        rw [switchesOf_cons_switch (Leaf.isSwitch_of_switch? hswitch)] at hrest
        show (Inline.shownAll (switch :: around) _ ++ []).map _ = _
        rw [List.append_nil]
        exact hrest
    | none =>
        have hrest := Node.shownAll_inlines rest around
        show (Inline.shownAll around (_ ++ _)).map _ = _
        rw [Inline.shownAll_append, List.map_append, hrest, Leaf.shownAll_inlines]
        rfl
  | .text words :: rest, around => by
    -- behind a group the switches are those in front of it
    have hwords := Phrase.shown_inline words around
    have hrest := Node.shownAll_inlines rest around
    rw [Node.inlines, Inline.shownAll, List.map_append, hwords, hrest, Node.styled,
      List.flatMap_append]
  | .bare _ :: rest, around | .root .. :: rest, around | .algorithm .. :: rest, around
  | .algorithmic .. :: rest, around | .block .. :: rest, around | .caption .. :: rest, around
  | .comment .. :: rest, around | .command .. :: rest, around | .call .. :: rest, around
  | .branch _ :: rest, around | .conditional .. :: rest, around | .loop .. :: rest, around
  | .function .. :: rest, around => Node.shownAll_inlines rest around

end

theorem Phrase.inPhrase_of_mem {phrase : Phrase α} {around : List Html.Span} {shown : Shown}
    (h : shown ∈ (phrase.inline setup).shown around) : shown.inPhrase = true := by
  obtain ⟨loc, items⟩ := phrase
  have hmem := (Inline.suffix_around_all _ _ shown h).subset (List.mem_cons_self ..)
  exact decide_eq_true hmem

end Phrases

/-! ## Pieces of content in documents -/

/-- Inside phrases these phrases are shown, and outside of them nothing stands behind a
switch. -/
structure Html.ShowsPhrases (setup : Setup) (shown : List Shown) (words : List (Phrase α)) :
    Prop where
  inside : (shown.filter Shown.inPhrase).map Shown.styled = words.flatMap (Phrase.shown setup)
  outside : ∀ x ∈ shown, x.inPhrase = false → x.switches = []

namespace Html.ShowsPhrases

variable {setup : Setup} {shown shown' : List Shown} {words words' : List (Phrase α)}

theorem append (h : ShowsPhrases setup shown words) (h' : ShowsPhrases setup shown' words') :
    ShowsPhrases setup (shown ++ shown') (words ++ words') where
  inside := by
    rw [List.filter_append, List.map_append, h.inside, h'.inside, List.flatMap_append]
  outside := List.forall_mem_append.2 ⟨h.outside, h'.outside⟩

/-- The numbers of lines stand behind no switch. -/
theorem of_inSpan (h : ShowsPhrases setup (shown.filter Shown.inSpan) words) :
    ShowsPhrases setup shown words where
  inside := by
    have hspan : ∀ x : Shown, (x.inPhrase && x.inSpan) = x.inPhrase := by
      rintro ⟨around, piece⟩
      cases around with
      | nil => rfl
      | cons => exact Bool.and_true _
    rw [← h.inside, List.filter_filter]
    simp only [hspan]
  outside := by
    intro x hx hphrase
    by_cases hspan : x.inSpan = true
    · exact h.outside x (List.mem_filter.2 ⟨hx, hspan⟩) hphrase
    · obtain ⟨around, piece⟩ := x
      cases around with
      | nil => rfl
      | cons => exact absurd rfl hspan

end Html.ShowsPhrases

/-- A place in a line that stands neither in a phrase nor behind a switch. -/
def Html.IsPlain (around : List Html.Span) : Prop :=
  .phrase ∉ around ∧ switchesOf around = []

section Documents

variable {form : Form} {setup : Setup}

/-- What stands in a plain place is no part of a phrase. -/
theorem Html.ShowsPhrases.plain {around : List Html.Span} (h : IsPlain around)
    (pieces : List Fragment) :
    ShowsPhrases setup (pieces.map (Shown.mk around)) ([] : List (Phrase α)) where
  inside := by
    have hnil : (pieces.map (Shown.mk around)).filter Shown.inPhrase = [] := by
      refine List.filter_eq_nil_iff.2 fun x hx => ?_
      obtain ⟨_, -, rfl⟩ := List.mem_map.1 hx
      exact Bool.eq_false_iff.1 (decide_eq_false h.1)
    rw [hnil]
    rfl
  outside := by
    intro x hx _
    obtain ⟨_, -, rfl⟩ := List.mem_map.1 hx
    exact h.2

theorem Html.ShowsPhrases.phrase {around : List Html.Span} (h : IsPlain around)
    (phrase : Phrase α) :
    ShowsPhrases setup ((phrase.inline setup).shown around) [phrase] where
  inside := by
    have hall : ((phrase.inline setup).shown around).filter Shown.inPhrase =
        (phrase.inline setup).shown around :=
      List.filter_eq_self.2 fun x hx => Phrase.inPhrase_of_mem setup hx
    rw [hall, Phrase.shown_inline, h.2, List.flatMap_singleton]
    rfl
  outside := by
    intro x hx hfalse
    rw [Phrase.inPhrase_of_mem setup hx] at hfalse
    cases hfalse

/-- Content shows its phrases, and labels behind no switch. -/
theorem Html.HoldsWords.showsPhrases {label : String → Prop} {content : List Inline}
    {words : List (Phrase α)} (h : HoldsWords form setup label content words)
    {around : List Html.Span} (haround : IsPlain around) :
    ShowsPhrases setup (Inline.shownAll around content) words := by
  induction h generalizing around with
  | nil => exact .plain haround []
  | keyword _ _ ih => exact (ShowsPhrases.plain haround _).append (ih haround)
  | functionName _ ih => exact (ShowsPhrases.plain haround _).append (ih haround)
  | text _ ih => exact (ShowsPhrases.plain haround _).append (ih haround)
  | phrase _ _ ih => exact (ShowsPhrases.phrase haround _).append (ih haround)
  | comment _ _ hinner hrest =>
      have hcomment : IsPlain (.comment :: around) := by
        refine ⟨fun hmem => haround.1 ?_, haround.2⟩
        simpa using hmem
      exact (hinner hcomment).append (hrest haround)

theorem Document.showsPhrases {tree : Node α} (h : Document form tree)
    (hfault : (tree.rendering setup).fault = none) :
    ShowsPhrases setup (shownIn [] (tree.rendering setup).page.fragments.toList)
      tree.displayedWords := by
  have hplain : IsPlain [Html.Span.content] := ⟨by simp, rfl⟩
  have hwords := (h.holdsWords setup).showsPhrases hplain
  have hspans := shownIn_box (.container .document (tree.layout setup)) []
  rw [List.append_nil] at hspans
  rw [h.rendering_fragments setup hfault, ← Box.merged_fragments, shownIn_merged]
  apply ShowsPhrases.of_inSpan
  rw [hspans]
  show ShowsPhrases setup (Inline.shownAll _ _ ++ []) _
  rw [List.append_nil]
  exact hwords

end Documents

/-! ## Sources -/

/-- What a source is read as is rendered with every switch in force from where it stands
to the end of its phrase, and nowhere else: around the leaves that are displayed stand
just the switches of their phrase and of the phrases around it that precede them, and
around labels, numbers and names none. -/
theorem switches_scoped {source : String} {tree : Node Source.Location}
    (hparse : parse source = .ok tree) (setup : Setup) :
    ((∃ s, setup.options.commentSymbol = .text s) → (∃ s, setup.options.lineNumberPunc = .text s) →
      (tree.rendering setup).fault = none) ∧
    ((tree.rendering setup).fault = none →
      (tree.rendering setup).markup =
        .ok (Fragment.join (tree.rendering setup).page.fragments.toList) ∧
      ((shownIn [] (tree.rendering setup).page.fragments.toList).filter Shown.inPhrase).map
        Shown.styled = tree.displayedWords.flatMap (Phrase.shown setup) ∧
      ∀ shown ∈ shownIn [] (tree.rendering setup).page.fragments.toList,
        shown.inPhrase = false → shown.switches = []) := by
  have hnormal := normal_of_parse hparse
  refine ⟨fun hsymbol hpunc => ?_, fun hfault => ⟨?_, ?_⟩⟩
  · have : setup.options.Textual := ⟨hsymbol, hpunc⟩
    exact hnormal.fault_eq_none setup
  · unfold Rendering.markup
    rw [hfault]
  · have hshows := Document.showsPhrases hnormal hfault
    exact ⟨hshows.inside, hshows.outside⟩

/-- Three switches in two phrases, a group within a group behind them, and then what
follows the phrases on the same line and on the next. -/
theorem switches_scoped_nested_groups :
    let source := "\\begin{algorithmic}\\STATE \\bf a\x7b\\it b\\small c\x7bd\x7d$x$\x7de" ++
      "\\COMMENT\x7b\\tiny f\x7d\\CALL{g}{h}\\STATE k\\AND\\end{algorithmic}"
    ∃ tree, parse source = .ok tree ∧
      let fragments := (tree.rendering ⟨.default, id⟩).page.fragments.toList
      ((shownIn [] fragments).filter Shown.inPhrase).map Shown.styled =
        [([.font "bf"], .text "a"), ([.font "bf", .font "it"], .text "b"),
          ([.font "bf", .font "it", .size "small"], .text "c"),
          ([.font "bf", .font "it", .size "small"], .text "d"),
          ([.font "bf", .font "it", .size "small"], .math "x" "x"), ([.font "bf"], .text "e"),
          ([.size "tiny"], .text "f"), ([], .text "h"), ([], .text "k"), ([], .keyword "and")] ∧
      ∀ shown ∈ shownIn [] fragments, shown.inPhrase = false → shown.switches = [] := by
  intro source
  have hwords : (parse source).toOption.map
      (fun tree => tree.displayedWords.flatMap (Phrase.shown ⟨.default, id⟩)) =
        some [([.font "bf"], .text "a"), ([.font "bf", .font "it"], .text "b"),
          ([.font "bf", .font "it", .size "small"], .text "c"),
          ([.font "bf", .font "it", .size "small"], .text "d"),
          ([.font "bf", .font "it", .size "small"], .math "x" "x"), ([.font "bf"], .text "e"),
          ([.size "tiny"], .text "f"), ([], .text "h"), ([], .text "k"), ([], .keyword "and")] := by
    have htext : source.toList = _ := toList_append_ofList
    rw [parse_of_toList htext]
    decide +kernel
  cases htree : parse source with
  | error fault =>
      rw [htree] at hwords
      cases hwords
  | ok tree =>
      rw [htree] at hwords
      obtain ⟨hfault, hshown⟩ := switches_scoped htree ⟨.default, id⟩
      obtain ⟨-, hinside, houtside⟩ := hshown (hfault ⟨_, rfl⟩ ⟨_, rfl⟩)
      exact ⟨tree, rfl, hinside.trans (Option.some.inj hwords), houtside⟩

end AlgoBox
