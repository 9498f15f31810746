import AlgoBox.Node.Equality
import AlgoBox.Proofs.Below
import AlgoBox.Proofs.Parts
import AlgoBox.Proofs.References
import AlgoBox.Proofs.TagSequence

/-!
# What is seen of a phrase

A reader sees of some markup what stands between its tags, and a line break for each
`<br/>` (`visible`). No fragment of a phrase leaves a tag open, so what is seen of them is
seen piece by piece, in front of whatever follows (`SeenAs`).

What is seen of a phrase is its plain text, character by character, each one escaped but
for the ampersands that the phrase holds as escapes (`Phrase.glyphs`): those are written as
they are. So with its references decoded the phrase reads as its plain text, unless such an
ampersand and the text behind it look like a reference (`visible_eq_plain_iff`).
-/

namespace AlgoBox

open Html Page Grammar Text AlgoBox.Symbol

variable {α : Type}

namespace Html

/-! ## Reading what is seen -/

/-- What is seen of some markup, where some of a tag may have been read already. -/
def visibleFrom : Option (List Char) → List Char → List Char
  | _, [] => []
  | none, c :: rest =>
    if c = '<' then visibleFrom (some []) rest else c :: visibleFrom none rest
  | some tag, c :: rest =>
    if c = '>' then (if tag = "br/".toList then ['\n'] else []) ++ visibleFrom none rest
    else visibleFrom (some (tag ++ [c])) rest

/-- What is seen of some markup: the characters outside its tags, and line breaks. -/
def visible (markup : List Char) : List Char := visibleFrom none markup

example : visible "a<b c=\"d\">e &amp; f<br/></b>g > h".toList = "ae &amp; f\ng > h".toList := by
  decide

/-- Of the markup the given characters are seen, whatever follows it. -/
def SeenAs (markup : String) (seen : List Char) : Prop :=
  ∀ rest, visible (markup.toList ++ rest) = seen ++ visible rest

section Seen

variable {markup markup' body attributes : String} {seen seen' : List Char}

theorem SeenAs.visible_eq (h : SeenAs markup seen) : visible markup.toList = seen := by
  have hall := h []
  rw [List.append_nil] at hall
  exact hall.trans (List.append_nil seen)

theorem seenAs_empty : SeenAs "" [] := fun _ => rfl

theorem SeenAs.append (h : SeenAs markup seen) (h' : SeenAs markup' seen') :
    SeenAs (markup ++ markup') (seen ++ seen') := by
  intro rest
  rw [String.toList_append, List.append_assoc, h, h', List.append_assoc]

theorem visible_of_not_mem {s : List Char} (h : '<' ∉ s) (rest : List Char) :
    visible (s ++ rest) = s ++ visible rest := by
  induction s with
  | nil => rfl
  | cons c s ih =>
      rw [List.mem_cons, not_or] at h
      obtain ⟨hc, hs⟩ := h
      exact (if_neg (Ne.symm hc)).trans (congrArg (c :: ·) (ih hs))

/-- Outside tags everything is seen. -/
theorem seenAs_of_not_mem (h : '<' ∉ markup.toList) : SeenAs markup markup.toList :=
  visible_of_not_mem h

theorem seenAs_lineBreak : SeenAs "<br/>" ['\n'] := fun _ => rfl

theorem visibleFrom_tag {s : List Char} (h : '>' ∉ s) (tag rest : List Char) :
    visibleFrom (some tag) (s ++ '>' :: rest) =
      (if tag ++ s = "br/".toList then ['\n'] else []) ++ visible rest := by
  induction s generalizing tag with
  | nil =>
      rw [List.append_nil]
      exact if_pos rfl
  | cons c s ih =>
      rw [List.mem_cons, not_or] at h
      obtain ⟨hc, hs⟩ := h
      rw [List.cons_append, visibleFrom, if_neg (Ne.symm hc), ih hs, List.append_assoc]
      rfl

/-- Other tags than line breaks are not seen. -/
theorem seenAs_tag (h : '>' ∉ body.toList) (hbreak : body.toList ≠ "br/".toList) :
    SeenAs ("<" ++ body ++ ">") [] := by
  intro rest
  have htag := visibleFrom_tag h [] rest
  rw [List.nil_append, if_neg hbreak] at htag
  rw [String.toList_append, String.toList_append, List.append_assoc, List.append_assoc]
  exact htag

theorem seenAs_opens (h : '>' ∉ attributes.toList) :
    SeenAs (Tag.opens .span attributes).markup [] := by
  have htag : '>' ∉ "span".toList := by decide
  have hbody : '>' ∉ ("span" ++ attributes).toList := by
    rw [String.toList_append, List.mem_append, not_or]
    exact ⟨htag, h⟩
  have hbreak : ("span" ++ attributes).toList ≠ "br/".toList := by
    rw [String.toList_append]
    exact fun hc => absurd (List.cons.inj hc).1 (by decide)
  have hmarkup : (Tag.opens .span attributes).markup = "<" ++ ("span" ++ attributes) ++ ">" := by
    rw [← String.append_assoc]
    rfl
  rw [hmarkup]
  exact seenAs_tag hbody hbreak

theorem seenAs_closes : SeenAs (Tag.closes .span).markup [] := fun _ => rfl

end Seen

/-! ## Fragments -/

/-- The markup of fragments with nothing between them. -/
def Fragment.concat (fragments : List Fragment) : String :=
  String.join (fragments.map Fragment.markup)

namespace Fragment

theorem concat_cons (f : Fragment) (rest : List Fragment) :
    concat (f :: rest) = f.markup ++ concat rest := String.join_cons

theorem concat_singleton (f : Fragment) : concat [f] = f.markup := by
  rw [concat_cons]
  exact String.append_empty

theorem concat_append (l m : List Fragment) : concat (l ++ m) = concat l ++ concat m := by
  induction l with
  | nil => exact (String.empty_append).symm
  | cons f rest ih => rw [List.cons_append, concat_cons, concat_cons, ih, String.append_assoc]

/-- Joining text does not change what is written. -/
theorem concat_merged (fragments : List Fragment) :
    concat (merged fragments) = concat fragments := by
  have hattach : ∀ (f : Fragment) rest, concat (attach f rest) = f.markup ++ concat rest := by
    intro f rest
    unfold attach
    split
    · rw [concat_cons, concat_cons, ← String.append_assoc]
      rfl
    · exact concat_cons f rest
  induction fragments with
  | nil => rfl
  | cons f rest ih => rw [merged, hattach, ih, concat_cons]

variable {span : Span} {seen : List Char} {rest : List Fragment}

theorem seenAs_concat_cons {f : Fragment} (h : SeenAs f.markup [])
    (hrest : SeenAs (concat rest) seen) : SeenAs (concat (f :: rest)) seen := by
  rw [concat_cons]
  exact h.append hrest

theorem markup_keyword (word : String) : (keyword word).markup =
    (Tag.opens .span " class=\"ps-keyword\"").markup ++
      (escape word ++ (Tag.closes .span).markup) := by
  rw [markup_eq_tags, Fragment.tags]
  simp only [List.map_cons, List.map_nil, String.join_cons, String.join_nil, String.append_empty]
  rfl

theorem seenAs_keyword (word : String) : SeenAs (keyword word).markup (escape word).toList := by
  have hopens : SeenAs (Tag.opens .span " class=\"ps-keyword\"").markup [] :=
    seenAs_opens (by decide)
  have hword := seenAs_of_not_mem (not_mem_escape word)
  have hall := hopens.append (hword.append seenAs_closes)
  rw [List.nil_append, List.append_nil] at hall
  rw [markup_keyword]
  exact hall

/-- The tags around a stretch are not seen. -/
theorem seenAs_stretch {content : List Inline} (hspan : '>' ∉ span.attributes.toList)
    (h : SeenAs (concat (Inline.fragmentsAll content)) seen) :
    SeenAs (concat (Inline.stretch span content).fragments) seen := by
  have hopens : SeenAs (openSpan span).markup [] := by
    show SeenAs span.tag []
    rw [Span.tag_eq]
    exact seenAs_opens hspan
  have hcloses : SeenAs (concat [closeSpan]) [] := fun _ => rfl
  refine seenAs_concat_cons hopens ?_
  rw [concat_append]
  simpa using h.append hcloses

end Fragment

end Html

/-! ## The characters of a phrase -/

/-- The characters of a leaf. An escaped ampersand is written as it is. -/
def Leaf.glyphs (item : Leaf) : List Glyph :=
  if item = .special "\\&" then [.ampersand] else item.plain.toList.map .escaped

mutual

/-- The characters of one item of a phrase; only leaves and phrases have any. -/
def Node.glyphs : Node α → List Glyph
  | .text words => words.glyphs
  | .leaf _ item => item.glyphs
  | _ => []

/-- The characters of a phrase. -/
def Phrase.glyphs : Phrase α → List Glyph
  | .mk _ items => Node.glyphsAll items

/-- The characters of some items one after the other. -/
def Node.glyphsAll : List (Node α) → List Glyph
  | [] => []
  | node :: rest => node.glyphs ++ Node.glyphsAll rest

end

theorem Leaf.map_char_glyphs (item : Leaf) : item.glyphs.map Glyph.char = item.plain.toList := by
  unfold glyphs
  split
  · subst item
    decide
  · rw [List.map_map]
    exact List.map_id _

mutual

theorem Node.map_char_glyphs : ∀ node : Node α, node.glyphs.map Glyph.char = node.plain.toList
  | .text words => Phrase.map_char_glyphs words
  | .leaf _ item => item.map_char_glyphs
  | .bare _ | .root .. | .algorithm .. | .algorithmic .. | .block .. | .caption .. | .comment ..
  | .command .. | .call .. | .branch _ | .conditional .. | .loop .. | .function .. => rfl

/-- The characters of a phrase are those of its plain text. -/
theorem Phrase.map_char_glyphs : ∀ words : Phrase α,
    words.glyphs.map Glyph.char = words.plain.toList
  | .mk _ items => Node.map_char_glyphsAll items

theorem Node.map_char_glyphsAll : ∀ items : List (Node α),
    (Node.glyphsAll items).map Glyph.char = (Node.plainAll items).toList
  | [] => rfl
  | node :: rest => by
    rw [Node.glyphsAll, List.map_append, Node.map_char_glyphs node, Node.map_char_glyphsAll rest,
      Node.plainAll, String.toList_append]

end

/-! ## Leaves -/

/-- Escaped text is seen as the characters of the text. -/
theorem toList_escape (s : String) :
    (escape s).toList = (s.toList.map Glyph.escaped).flatMap Glyph.markup := by
  rw [escape, String.toList_ofList, escapeChars_eq_flatMap, List.flatMap_map]
  rfl

variable {setup : Setup}

/-- An escape is written as its character, but for the one that breaks the line. -/
theorem escapeMarkup?_of_isReserved {c : Char} (h : isReserved c = true) :
    escapeMarkup? (String.ofList ['\\', c]) =
      some (if c = '\\' then "<br/>" else String.singleton c) :=
  of_decide_eq_true (of_isReserved (p := fun c => escapeMarkup? (String.ofList ['\\', c]) =
    some (if c = '\\' then "<br/>" else String.singleton c)) (by decide) h)

/-- No escape is escaped in turn. -/
theorem Leaf.flatMap_glyphs_special {c : Char} (h : isReserved c = true) :
    (Leaf.special (String.ofList ['\\', c])).glyphs.flatMap Glyph.markup =
      [if c = '\\' then '\n' else c] :=
  of_decide_eq_true (of_isReserved (p := fun c =>
    (Leaf.special (String.ofList ['\\', c])).glyphs.flatMap Glyph.markup =
      [if c = '\\' then '\n' else c]) (by decide) h)

theorem Leaf.seenAs_special {escape : String} (h : (Token.special escape).Valid) :
    SeenAs ((escapeMarkup? escape).getD "")
      ((Leaf.special escape).glyphs.flatMap Glyph.markup) := by
  obtain ⟨c, hc, hescape⟩ := h
  obtain rfl : escape = String.ofList ['\\', c] := by rw [← hescape, String.ofList_toList]
  rw [escapeMarkup?_of_isReserved hc, Leaf.flatMap_glyphs_special hc, Option.getD_some]
  by_cases hbreak : c = '\\'
  · rw [if_pos hbreak, if_pos hbreak]
    exact seenAs_lineBreak
  · have hne : c ≠ '<' :=
      of_decide_eq_true (of_isReserved (p := fun c => c ≠ '<') (by decide) hc)
    have hlist : (String.singleton c).toList = [c] := String.toList_singleton c
    have hmem : '<' ∉ (String.singleton c).toList := by
      rw [hlist, List.mem_singleton]
      exact hne.symm
    rw [if_neg hbreak, if_neg hbreak, ← hlist]
    exact seenAs_of_not_mem hmem

/-- A leaf that is no formula is seen as its characters. -/
theorem Leaf.seenAs {item : Leaf} (hvalid : item.token.Valid)
    (hformula : ∀ body, item ≠ .math body) :
    SeenAs (Fragment.concat (Inline.fragmentsAll (item.inlines setup)))
      (item.glyphs.flatMap Glyph.markup) := by
  cases item with
  | ordinary content =>
      have hseen := seenAs_of_not_mem (not_mem_escape content)
      rw [toList_escape] at hseen
      show SeenAs (Fragment.concat [.text (escape content)]) _
      rw [Fragment.concat_singleton]
      exact hseen
  | math body => exact absurd rfl (hformula body)
  | special escape =>
      show SeenAs (Fragment.concat [.text ((escapeMarkup? escape).getD "")]) _
      rw [Fragment.concat_singleton]
      exact Leaf.seenAs_special hvalid
  | bool keyword =>
      have hseen := Fragment.seenAs_keyword (lower keyword)
      rw [toList_escape] at hseen
      show SeenAs (Fragment.concat [.keyword (lower keyword)]) _
      rw [Fragment.concat_singleton]
      exact hseen
  | size name => exact seenAs_empty
  | font name => exact seenAs_empty

/-! ## Phrases -/

/-- There is no formula in the node, at any depth. -/
def Node.FormulaFree (node : Node α) : Prop := ∀ loc body, ¬node.Within (.leaf loc (.math body))

theorem Node.formulaFree_leaf {loc : α} {item : Leaf} :
    (Node.leaf loc item).FormulaFree ↔ ∀ body, item ≠ .math body := by
  constructor
  · rintro h body rfl
    exact h loc body .top
  · intro h loc' body hwithin
    rcases Node.within_iff.1 hwithin with heq | ⟨part, hpart, -⟩
    · cases heq
      exact h body rfl
    · cases hpart

theorem Node.formulaFree_text {loc : α} {items : List (Node α)} :
    (Node.text (.mk loc items)).FormulaFree ↔ ∀ item ∈ items, item.FormulaFree := by
  constructor
  · intro h item hitem loc' body hwithin
    exact h loc' body (Node.within_iff.2 (.inr ⟨item, hitem, hwithin⟩))
  · intro h loc' body hwithin
    rcases Node.within_iff.1 hwithin with heq | ⟨item, hitem, hinner⟩
    · cases heq
    · exact h item hitem loc' body hinner

mutual

/-- Options and renderer matter to formulas only. -/
theorem Phrase.inline_eq_of_formulaFree (setup setup' : Setup) : ∀ words : Phrase α,
    (Node.text words).FormulaFree → words.inline setup = words.inline setup'
  | .mk _ items, h =>
    congrArg (Inline.stretch .phrase)
      (Node.inlines_eq_of_formulaFree setup setup' items (Node.formulaFree_text.1 h))

theorem Node.inlines_eq_of_formulaFree (setup setup' : Setup) : ∀ items : List (Node α),
    (∀ item ∈ items, item.FormulaFree) → Node.inlines setup items = Node.inlines setup' items
  | [], _ => rfl
  | .leaf _ item :: rest, h => by
    obtain ⟨hitem, hrest⟩ := List.forall_mem_cons.1 h
    have hleaf : item.inlines setup = item.inlines setup' := by
      cases item with
      | math body => exact absurd rfl (Node.formulaFree_leaf.1 hitem body)
      | _ => rfl
    rw [Node.inlines, Node.inlines, Node.inlines_eq_of_formulaFree setup setup' rest hrest, hleaf]
  | .text words :: rest, h => by
    obtain ⟨hwords, hrest⟩ := List.forall_mem_cons.1 h
    rw [Node.inlines, Node.inlines, words.inline_eq_of_formulaFree setup setup' hwords,
      Node.inlines_eq_of_formulaFree setup setup' rest hrest]
  | .bare _ :: rest, h | .root .. :: rest, h | .algorithm .. :: rest, h
  | .algorithmic .. :: rest, h | .caption .. :: rest, h | .comment .. :: rest, h
  | .call .. :: rest, h | .branch _ :: rest, h | .block .. :: rest, h | .command .. :: rest, h
  | .conditional .. :: rest, h | .loop .. :: rest, h | .function .. :: rest, h =>
    Node.inlines_eq_of_formulaFree setup setup' rest (List.forall_mem_cons.1 h).2

end

/-- The items are seen as their characters. -/
def Node.ItemsSeen (setup : Setup) (items : List (Node α)) : Prop :=
  SeenAs (Fragment.concat (Inline.fragmentsAll (Node.inlines setup items)))
    ((Node.glyphsAll items).flatMap Glyph.markup)

theorem itemsSeen {items : List (Node α)}
    (h : ∀ item ∈ items, ∀ rest, Node.ItemsSeen setup rest →
      Node.ItemsSeen setup (item :: rest)) : Node.ItemsSeen setup items := by
  induction items with
  | nil => exact seenAs_empty
  | cons item rest ih =>
      obtain ⟨hitem, hrest⟩ := List.forall_mem_cons.1 h
      exact hitem rest (ih hrest)

/-- The names of sizes and fonts do not end a tag. -/
theorem Leaf.not_mem_switch {item : Leaf} {span : Html.Span} (hknown : item.IsKnown)
    (h : item.switch? = some span) : '>' ∉ span.attributes.toList := by
  have hsizes : ∀ name ∈ sizeWords, '>' ∉ (Span.size name).attributes.toList := by decide
  have hfonts : ∀ name ∈ fontWords, '>' ∉ (Span.font name).attributes.toList := by decide
  cases item with
  | size name =>
      cases h
      exact hsizes name hknown
  | font name =>
      cases h
      exact hfonts name hknown
  | _ => cases h

/-- A phrase is seen as the characters of its items. -/
theorem seenAs_phrase {loc : α} {items : List (Node α)} (h : Node.ItemsSeen setup items) :
    SeenAs (Fragment.concat ((Phrase.mk loc items).inline setup).fragments)
      ((Phrase.mk loc items).glyphs.flatMap Glyph.markup) :=
  Fragment.seenAs_stretch List.not_mem_nil h

theorem Item.seen {node : Node α} (h : Item .normal node) : node.FormulaFree → ∀ rest,
    Node.ItemsSeen setup rest → Node.ItemsSeen setup (node :: rest) := by
  induction h with
  | @leaf _ item hknown hvalid =>
      intro hfree rest hrest
      unfold Node.ItemsSeen
      rw [Node.inlines, Node.glyphsAll, Node.glyphs, List.flatMap_append]
      cases hswitch : item.switch? with
      | some span =>
          -- a switch has no characters, and the rest stands in its stretch
          have hnone : item.glyphs = [] := by
            cases item with
            | size | font => rfl
            | _ => cases hswitch
          dsimp only
          rw [Inline.fragmentsAll_singleton, hnone]
          exact Fragment.seenAs_stretch (item.not_mem_switch hknown hswitch) hrest
      | none =>
          dsimp only
          rw [Inline.fragmentsAll_append, Fragment.concat_append]
          exact (Leaf.seenAs hvalid (Node.formulaFree_leaf.1 hfree)).append hrest
  | group _ _ hitems =>
      intro hfree rest hrest
      unfold Node.ItemsSeen
      rw [Node.inlines, Inline.fragmentsAll, Fragment.concat_append, Node.glyphsAll, Node.glyphs,
        List.flatMap_append]
      refine (seenAs_phrase (itemsSeen fun item hitem => ?_)).append hrest
      exact hitems item hitem (Node.formulaFree_text.1 hfree item hitem)

theorem Words.seen {words : Phrase α} (h : Words .normal words)
    (hfree : (Node.text words).FormulaFree) :
    SeenAs (Fragment.concat (words.inline setup).fragments)
      (words.glyphs.flatMap Glyph.markup) := by
  obtain ⟨hitems, -⟩ := h
  exact seenAs_phrase (itemsSeen fun item hitem =>
    (hitems item hitem).seen (Node.formulaFree_text.1 hfree item hitem))

/-! ## Sources -/

/-- A phrase without formulas writes the same fragments whatever the options and the page,
behind the text that is held back there. What is seen of them is, with the references decoded, the plain text of
the phrase, unless it holds an escaped ampersand in front of a text that goes on like the
name of a reference. -/
theorem visible_eq_plain_iff {source : String} {tree : Node Source.Location}
    {words : Phrase Source.Location} (hparse : parse source = .ok tree)
    (hwithin : tree.Within (.text words)) (hfree : (Node.text words).FormulaFree) :
    ∃ out : List Fragment,
      (∀ (setup : Setup) (page : Page), words.render setup page = .ok () { page with
        fragments := page.fragments ++ (page.held ++ out).toArray
        pending := #[] }) ∧
      (decode references (visible (Fragment.concat out).toList) = words.plain.toList ↔
        ¬Misread words.glyphs) := by
  have hnormal := normal_of_parse hparse
  have hwords : Words .normal words := by
    rcases Document.within hnormal hwithin with hroot | hconstituent
    · obtain ⟨-⟩ := hnormal
      cases hroot
    · exact hconstituent.words_of_text
  -- no option is looked at, so those of any setup do
  refine ⟨merged (words.inline ⟨.default, delimited⟩).fragments, fun setup => ?_, ?_⟩
  · rw [words.inline_eq_of_formulaFree _ setup hfree]
    exact hwords.render_eq setup
  rw [Fragment.concat_merged, (hwords.seen hfree).visible_eq, ← words.map_char_glyphs]
  exact decode_markup_eq_iff words.glyphs

/-- An escaped ampersand in front of a group with a switch, an angle bracket, a keyword and
a line break. -/
theorem visible_eq_plain_group_with_switch :
    let source := "\\begin{algorithmic}\\STATE a\\&\x7b\\bf<\\OR\\\\\x7d\\end{algorithmic}"
    ∃ tree words, parse source = .ok tree ∧ tree.Within (.text words) ∧
      words.plain = "a&<or\n" ∧
      ∃ out : List Fragment,
        (∀ setup : Setup, words.render setup {} = .ok () { fragments := out.toArray }) ∧
        decode references (visible (Fragment.concat out).toList) = "a&<or\n".toList := by
  intro source
  have hparse : parse source =
      .ok (.root ⟨1, 1, 0, 57⟩ [.algorithmic ⟨1, 1, 0, 40⟩ [.block ⟨1, 20, 19, 40⟩
        [.command ⟨1, 20, 19, 40⟩ "STATE" (.mk ⟨1, 27, 26, 40⟩
          [.leaf ⟨1, 27, 26, 27⟩ (.ordinary "a"), .leaf ⟨1, 28, 27, 29⟩ (.special "\\&"),
            .text (.mk ⟨1, 31, 30, 39⟩
              [.leaf ⟨1, 31, 30, 33⟩ (.font "bf"), .leaf ⟨1, 34, 33, 34⟩ (.ordinary "<"),
                .leaf ⟨1, 35, 34, 37⟩ (.bool "OR"),
                .leaf ⟨1, 38, 37, 39⟩ (.special "\\\\")])])]]]) := by
    rw [parse_eq_ok_iff, parse_of_toList String.toList_ofList]
    decide +kernel
  have top : ∀ {tree}, parse source = .ok tree → tree.Within tree := fun _ => .top
  have hblock := ((top hparse).step List.mem_cons_self).step List.mem_cons_self
  have hwithin := (hblock.step List.mem_cons_self).step List.mem_cons_self
  obtain ⟨out, hrender, hplain⟩ := visible_eq_plain_iff hparse hwithin
    (by simp [Node.formulaFree_text, Node.formulaFree_leaf])
  refine ⟨_, _, hparse, hwithin, by decide, out, fun setup => ?_, ?_⟩
  · simpa [Page.held] using hrender setup {}
  · exact hplain.2 (by decide)

/-- Not every phrase reads as its plain text: behind an escaped ampersand stands text that
makes a reference of it. -/
theorem not_always_visible_as_plain :
    ¬∀ (source : String) (tree : Node Source.Location) (words : Phrase Source.Location)
        (setup : Setup) (out : List Fragment),
      parse source = .ok tree → tree.Within (.text words) → (Node.text words).FormulaFree →
      words.render setup {} = .ok () { fragments := out.toArray } →
      decode references (visible (Fragment.concat out).toList) = words.plain.toList := by
  intro hall
  have hparse : parse "\\begin{algorithmic}\\STATE \\&amp;\\end{algorithmic}" =
      .ok (.root ⟨1, 1, 0, 49⟩ [.algorithmic ⟨1, 1, 0, 32⟩ [.block ⟨1, 20, 19, 32⟩
        [.command ⟨1, 20, 19, 32⟩ "STATE" (.mk ⟨1, 27, 26, 32⟩
          [.leaf ⟨1, 27, 26, 28⟩ (.special "\\&"),
            .leaf ⟨1, 29, 28, 32⟩ (.ordinary "amp;")])]]]) := by
    rw [parse_eq_ok_iff, parse_of_toList String.toList_ofList]
    decide +kernel
  have top : ∀ {source tree}, parse source = .ok tree → tree.Within tree := fun _ => .top
  have hblock := ((top hparse).step List.mem_cons_self).step List.mem_cons_self
  have hwithin := (hblock.step List.mem_cons_self).step List.mem_cons_self
  have hplain := hall _ _ _ ⟨.default, delimited⟩
    [.openSpan .phrase, .text "&amp;", .closeSpan] hparse hwithin
    (by simp [Node.formulaFree_text, Node.formulaFree_leaf]) (by rfl)
  revert hplain
  decide

end AlgoBox
