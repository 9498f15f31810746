import AlgoBox.Html.Page

/-!
# Boxes

The output as a tree. A box is a line or a container of boxes, and a line holds
pieces of content, some of them inside stretches. Written from left to right, a
box is a sequence of fragments (`Box.fragments`), and nothing that is no box is
written in this way: nesting is part of the data.

A page holds text back and writes neighbouring pieces of it as one fragment.
Joining them in the sequence (`merged`) is joining them in the tree
(`Box.merged_fragments`).
-/

namespace AlgoBox.Html

/-! ## Pieces of a line -/

/-- A piece of what a line holds. Text is markup already; a stretch holds pieces again. -/
inductive Inline where
  | text (markup : String)
  | math (body markup : String)
  | keyword (word : String)
  | functionName (name : String)
  | stretch (span : Span) (content : List Inline)

mutual

/-- The fragments of a piece. -/
def Inline.fragments : Inline → List Fragment
  | .text markup => [.text markup]
  | .math body markup => [.math body markup]
  | .keyword word => [.keyword word]
  | .functionName name => [.functionName name]
  | .stretch span content => .openSpan span :: (Inline.fragmentsAll content ++ [.closeSpan])

/-- The fragments of some pieces. -/
def Inline.fragmentsAll : List Inline → List Fragment
  | [] => []
  | piece :: rest => piece.fragments ++ Inline.fragmentsAll rest

end

theorem Inline.fragmentsAll_append (l m : List Inline) :
    fragmentsAll (l ++ m) = fragmentsAll l ++ fragmentsAll m := by
  induction l with
  | nil => rfl
  | cons piece rest ih => simp only [List.cons_append, fragmentsAll, ih, List.append_assoc]

theorem Inline.fragmentsAll_singleton (piece : Inline) : fragmentsAll [piece] = piece.fragments :=
  List.append_nil _

/-- The fragment may stand in a piece of a line. -/
def Fragment.IsInline : Fragment → Prop
  | .openDiv _ | .closeDiv | .openLine _ | .closeLine | .lineNumber .. => False
  | _ => True

mutual

theorem Inline.isInline_of_mem : ∀ (piece : Inline), ∀ f ∈ piece.fragments, f.IsInline
  | .text _, f, hf | .math .., f, hf | .keyword _, f, hf | .functionName _, f, hf => by
    obtain rfl := List.mem_singleton.1 hf
    trivial
  | .stretch span content, f, hf => by
    have hcontent := Inline.isInline_of_mem_all content f
    rw [fragments, List.mem_cons, List.mem_append, List.mem_singleton] at hf
    rcases hf with rfl | hf | rfl
    · trivial
    · exact hcontent hf
    · trivial

theorem Inline.isInline_of_mem_all : ∀ (content : List Inline), ∀ f ∈ fragmentsAll content,
    f.IsInline
  | [], f, hf => absurd hf List.not_mem_nil
  | piece :: rest, f, hf => by
    have hpiece := Inline.isInline_of_mem piece f
    have hrest := Inline.isInline_of_mem_all rest f
    rw [fragmentsAll, List.mem_append] at hf
    rcases hf with hf | hf
    · exact hpiece hf
    · exact hrest hf

end

/-! ## Lines and containers -/

/-- The number of a line: how far left of the line it stands, in em, the number, and the
markup of what follows it. -/
structure LineNumber where
  offset : String
  number : Nat
  punc : String
deriving DecidableEq

/-- The fragment of a line number. -/
def LineNumber.fragment (n : LineNumber) : Fragment := .lineNumber n.offset n.number n.punc

/-- A line with its number, if it has one, and what stands in it besides. -/
structure Row where
  line : Line
  number : Option LineNumber
  content : List Inline

/-- The fragments of a line up to where more content may follow. -/
def Row.opened (row : Row) : List Fragment :=
  .openLine row.line :: (row.number.toList.map LineNumber.fragment ++
    .openSpan .content :: Inline.fragmentsAll row.content)

/-- The fragments that end a line. -/
def Row.ending : List Fragment := [.closeSpan, .closeLine]

/-- The fragments of a line. -/
def Row.fragments (row : Row) : List Fragment := row.opened ++ Row.ending

/-- The line with more content. -/
def Row.add (content : List Inline) (row : Row) : Row :=
  { row with content := row.content ++ content }

@[simp] theorem Row.opened_add (row : Row) (content : List Inline) :
    (row.add content).opened = row.opened ++ Inline.fragmentsAll content := by
  simp only [opened, add, Inline.fragmentsAll_append, List.cons_append, List.append_assoc]

/-- A line, or a container with the boxes in it. -/
inductive Box where
  | line (row : Row)
  | container (div : Div) (content : List Box)

mutual

/-- The fragments of a box. -/
def Box.fragments : Box → List Fragment
  | .line row => row.fragments
  | .container div content => .openDiv div :: (Box.fragmentsAll content ++ [.closeDiv])

/-- The fragments of some boxes. -/
def Box.fragmentsAll : List Box → List Fragment
  | [] => []
  | box :: rest => box.fragments ++ Box.fragmentsAll rest

end

theorem Box.fragmentsAll_append (l m : List Box) :
    fragmentsAll (l ++ m) = fragmentsAll l ++ fragmentsAll m := by
  induction l with
  | nil => rfl
  | cons box rest ih => simp only [List.cons_append, fragmentsAll, ih, List.append_assoc]

theorem Box.fragmentsAll_singleton (box : Box) : fragmentsAll [box] = box.fragments :=
  List.append_nil _

/-! ## Joining text -/

/-- A sequence behind a fragment. Text is joined with the text that it stands in
front of. -/
def attach : Fragment → List Fragment → List Fragment
  | .text s, .text t :: rest => .text (s ++ t) :: rest
  | fragment, rest => fragment :: rest

/-- A sequence of fragments with neighbouring pieces of text joined. -/
def merged : List Fragment → List Fragment
  | [] => []
  | fragment :: rest => attach fragment (merged rest)

/-- The fragment is text. -/
def Fragment.IsText : Fragment → Prop
  | .text _ => True
  | _ => False

/-- The first fragment of a sequence is text. -/
def StartsText (fragments : List Fragment) : Prop := ∃ f ∈ fragments.head?, f.IsText

/-- The last fragment of a sequence is text. -/
def EndsText (fragments : List Fragment) : Prop := ∃ f ∈ fragments.getLast?, f.IsText

theorem not_startsText_nil : ¬StartsText [] := by
  rintro ⟨f, hf, -⟩
  cases hf

theorem startsText_cons (f : Fragment) (rest : List Fragment) :
    StartsText (f :: rest) ↔ f.IsText := by
  simp [StartsText]

theorem not_endsText_nil : ¬EndsText [] := by
  rintro ⟨f, hf, -⟩
  cases hf

theorem endsText_singleton (f : Fragment) : EndsText [f] ↔ f.IsText := by
  simp [EndsText]

theorem endsText_append_singleton (front : List Fragment) (f : Fragment) :
    EndsText (front ++ [f]) ↔ f.IsText := by
  simp [EndsText]

theorem endsText_append_cons (front : List Fragment) (f : Fragment) (rest : List Fragment) :
    EndsText (front ++ f :: rest) ↔ EndsText (f :: rest) := by
  simp [EndsText, List.getLast?_append]

theorem attach_eq_cons {f : Fragment} {rest : List Fragment} (h : f.IsText → ¬StartsText rest) :
    attach f rest = f :: rest := by
  cases f with
  | text s =>
      cases rest with
      | nil => rfl
      | cons g rest =>
          cases g with
          | text t => exact absurd ((startsText_cons (.text t) rest).2 trivial) (h trivial)
          | _ => rfl
  | _ => rfl

theorem startsText_attach {f : Fragment} {rest : List Fragment} :
    StartsText (attach f rest) ↔ f.IsText := by
  cases f with
  | text s =>
      cases rest with
      | nil => exact startsText_cons _ _
      | cons g rest => cases g <;> exact startsText_cons _ _
  | _ => exact startsText_cons _ _

theorem startsText_merged {fragments : List Fragment} :
    StartsText (merged fragments) ↔ StartsText fragments := by
  cases fragments with
  | nil => rfl
  | cons f rest => rw [merged, startsText_attach, startsText_cons]

theorem attach_append {f : Fragment} {front rest : List Fragment} (h : front ≠ []) :
    attach f (front ++ rest) = attach f front ++ rest := by
  cases front with
  | nil => exact absurd rfl h
  | cons g front =>
      cases f with
      | text s => cases g <;> rfl
      | _ => rfl

theorem merged_ne_nil {fragments : List Fragment} (h : fragments ≠ []) : merged fragments ≠ [] := by
  cases fragments with
  | nil => exact absurd rfl h
  | cons f rest =>
      rw [merged]
      intro hnil
      unfold attach at hnil
      split at hnil <;> cases hnil

/-- Sequences are joined one by one unless text stands on both sides of the seam. -/
theorem merged_append {front rest : List Fragment} (h : EndsText front → ¬StartsText rest) :
    merged (front ++ rest) = merged front ++ merged rest := by
  induction front with
  | nil => rfl
  | cons f front ih =>
      rw [List.cons_append, merged, merged]
      by_cases hfront : front = []
      · subst hfront
        have hseam : f.IsText → ¬StartsText (merged rest) := by
          intro hf hrest
          exact h ((endsText_singleton f).2 hf) (startsText_merged.1 hrest)
        rw [List.nil_append, attach_eq_cons hseam, merged,
          attach_eq_cons fun _ => not_startsText_nil]
        rfl
      · obtain ⟨g, front', rfl⟩ := List.exists_cons_of_ne_nil hfront
        have hends : EndsText (g :: front') → ¬StartsText rest := by
          intro hends
          exact h ((endsText_append_cons [f] g front').2 hends)
        rw [ih hends, attach_append (merged_ne_nil hfront)]

theorem merged_append_singleton {f : Fragment} {front : List Fragment} (hf : ¬f.IsText) :
    merged (front ++ [f]) = merged front ++ [f] := by
  rw [merged_append fun _ hstarts => hf ((startsText_cons f []).1 hstarts)]
  show _ ++ attach f [] = _
  rw [attach_eq_cons fun h => absurd h hf]

theorem merged_cons {f : Fragment} {rest : List Fragment} (hf : ¬f.IsText) :
    merged (f :: rest) = f :: merged rest :=
  attach_eq_cons fun h => absurd h hf

/-- Pieces of text alone become one piece. -/
theorem merged_texts (s : String) (texts : List String) :
    merged ((s :: texts).map .text) = [.text (String.join (s :: texts))] := by
  induction texts generalizing s with
  | nil => simp [merged, attach, String.join]
  | cons t texts ih =>
      rw [List.map_cons, merged, ih t]
      simp [attach, String.join_cons]

/-- What passes text over does not see that text is joined. -/
theorem filterMap_merged {β : Type} {p : Fragment → Option β} (hp : ∀ s, p (.text s) = none)
    (fragments : List Fragment) : (merged fragments).filterMap p = fragments.filterMap p := by
  have hattach : ∀ f rest, (attach f rest).filterMap p = (f :: rest).filterMap p := by
    intro f rest
    unfold attach
    split
    · simp only [List.filterMap_cons, hp]
    · rfl
  induction fragments with
  | nil => rfl
  | cons f rest ih => rw [merged, hattach, List.filterMap_cons, List.filterMap_cons, ih]

/-! ## Joining text in boxes -/

/-- Pieces behind a piece. Text is joined with the text that it stands in front
of. -/
def Inline.attach : Inline → List Inline → List Inline
  | .text s, .text t :: rest => .text (s ++ t) :: rest
  | piece, rest => piece :: rest

mutual

/-- A piece with neighbouring text in it joined. -/
def Inline.merge : Inline → Inline
  | .stretch span content => .stretch span (Inline.mergeAll content)
  | piece => piece

/-- Some pieces with neighbouring text joined. -/
def Inline.mergeAll : List Inline → List Inline
  | [] => []
  | piece :: rest => piece.merge.attach (Inline.mergeAll rest)

end

/-- A line with neighbouring text joined. -/
def Row.merge (row : Row) : Row := { row with content := Inline.mergeAll row.content }

mutual

/-- A box with neighbouring text joined. -/
def Box.merge : Box → Box
  | .line row => .line row.merge
  | .container div content => .container div (Box.mergeAll content)

/-- Some boxes with neighbouring text joined. -/
def Box.mergeAll : List Box → List Box
  | [] => []
  | box :: rest => box.merge :: Box.mergeAll rest

end

/-- The piece is text. -/
def Inline.IsText : Inline → Prop
  | .text _ => True
  | _ => False

theorem Inline.endsText_fragments {piece : Inline} (h : ¬piece.IsText) :
    ¬EndsText piece.fragments := by
  cases piece with
  | text => exact absurd trivial h
  | stretch span content =>
      intro hends
      exact (endsText_append_singleton (.openSpan span :: fragmentsAll content) .closeSpan).1 hends
  | _ =>
      intro hends
      exact (endsText_singleton _).1 hends

theorem Inline.startsText_fragmentsAll_cons {piece : Inline} {rest : List Inline}
    (h : ¬piece.IsText) : ¬StartsText (fragmentsAll (piece :: rest)) := by
  cases piece with
  | text => exact absurd trivial h
  | _ =>
      intro hstarts
      exact (startsText_cons _ _).1 hstarts

theorem Inline.fragmentsAll_attach_text (s : String) (rest : List Inline) :
    fragmentsAll ((Inline.text s).attach rest) = Html.attach (.text s) (fragmentsAll rest) := by
  cases rest with
  | nil => rfl
  | cons piece rest =>
      cases piece with
      | text t => rfl
      | _ => exact (attach_eq_cons fun _ => Inline.startsText_fragmentsAll_cons id).symm

theorem Inline.attach_eq_cons {piece : Inline} {rest : List Inline} (h : ¬piece.IsText) :
    piece.attach rest = piece :: rest := by
  cases piece with
  | text => exact absurd trivial h
  | _ => rfl

mutual

theorem Inline.merged_fragments : ∀ piece : Inline, merged piece.fragments = piece.merge.fragments
  | .text _ | .math .. | .keyword _ | .functionName _ => rfl
  | .stretch span content => by
    have hcontent := Inline.merged_fragmentsAll content
    show merged (.openSpan span :: (fragmentsAll content ++ [.closeSpan])) = _
    rw [merged_cons id, merged_append_singleton id, hcontent]
    rfl

theorem Inline.merged_fragmentsAll : ∀ content : List Inline,
    merged (fragmentsAll content) = fragmentsAll (mergeAll content)
  | [] => rfl
  | piece :: rest => by
    have hpiece := Inline.merged_fragments piece
    have hrest := Inline.merged_fragmentsAll rest
    rw [fragmentsAll, mergeAll]
    by_cases htext : piece.IsText
    · cases piece with
      | text s =>
          rw [merge, fragmentsAll_attach_text, ← hrest]
          · rfl
          · intro span content h
            cases h
      | _ => exact htext.elim
    · have hmerge : ¬piece.merge.IsText := by
        cases piece with
        | text => exact absurd trivial htext
        | _ => exact id
      rw [merged_append fun hends => absurd hends (endsText_fragments htext), hpiece, hrest,
        Inline.attach_eq_cons hmerge]
      rfl

end

theorem Row.merged_fragments (row : Row) : merged row.fragments = row.merge.fragments := by
  have hcontent := Inline.merged_fragmentsAll row.content
  have hnumber : ∀ rest : List Fragment,
      merged (row.number.toList.map LineNumber.fragment ++ rest) =
        row.number.toList.map LineNumber.fragment ++ merged rest := by
    intro rest
    cases row.number with
    | none => rfl
    | some n => exact merged_cons id
  show merged (.openLine row.line :: (row.number.toList.map LineNumber.fragment ++
    .openSpan .content :: Inline.fragmentsAll row.content) ++ [.closeSpan, .closeLine]) = _
  rw [merged_append fun _ hstarts => (startsText_cons .closeSpan _).1 hstarts, merged_cons id,
    hnumber, merged_cons id, hcontent]
  rfl

/-- A box ends with an end tag. -/
theorem Box.exists_fragments_eq (box : Box) :
    ∃ front f, box.fragments = front ++ [f] ∧ ¬f.IsText := by
  cases box with
  | line row =>
      refine ⟨row.opened ++ [.closeSpan], .closeLine, ?_, id⟩
      simp only [fragments, Row.fragments, Row.ending, List.append_assoc, List.cons_append,
        List.nil_append]
  | container div content => exact ⟨.openDiv div :: fragmentsAll content, .closeDiv, rfl, id⟩

theorem Box.not_endsText_fragmentsAll {before : List Fragment} (h : ¬EndsText before)
    (content : List Box) : ¬EndsText (before ++ fragmentsAll content) := by
  induction content generalizing before with
  | nil =>
      rw [fragmentsAll, List.append_nil]
      exact h
  | cons box rest ih =>
      obtain ⟨front, f, hbox, hf⟩ := box.exists_fragments_eq
      rw [fragmentsAll, ← List.append_assoc]
      apply ih
      rw [hbox, ← List.append_assoc, endsText_append_singleton]
      exact hf

mutual

/-- Joining text in the fragments of a box is joining it in the box. -/
theorem Box.merged_fragments : ∀ box : Box, merged box.fragments = box.merge.fragments
  | .line row => row.merged_fragments
  | .container div content => by
    have hcontent := Box.merged_fragmentsAll content
    show merged (.openDiv div :: (fragmentsAll content ++ [.closeDiv])) = _
    rw [merged_cons id, merged_append_singleton id, hcontent]
    rfl

theorem Box.merged_fragmentsAll : ∀ content : List Box,
    merged (fragmentsAll content) = fragmentsAll (mergeAll content)
  | [] => rfl
  | box :: rest => by
    have hbox := Box.merged_fragments box
    have hrest := Box.merged_fragmentsAll rest
    obtain ⟨front, f, heq, hf⟩ := box.exists_fragments_eq
    have hends : ¬EndsText box.fragments := by
      rw [heq, endsText_append_singleton]
      exact hf
    rw [fragmentsAll, mergeAll, merged_append fun h => absurd h hends, hbox, hrest]
    rfl

end

end AlgoBox.Html
