import AlgoBox.Proofs.Drawing
import AlgoBox.Proofs.LayoutIndependence

/-!
# What is displayed of a tree

Of the captions of an algorithm the last one is displayed, in front of everything else
that the algorithm holds. In the displayed tree (`Node.displayed`) the parts stand in
this order and the other captions are left out; it is rendered like the tree itself
(`Node.rendering_displayed`), so its phrases, from left to right, are those that are
displayed.

Of a phrase the leaves are displayed that are no switches. A switch stays in force to the
end of the phrase that it stands in, in the groups behind it as well (`Phrase.styled`).
-/

namespace AlgoBox

open Html Page Grammar

variable {α : Type}

/-! ## Captions -/

/-- The parts of an algorithm as they are displayed: the last caption first, and no other
caption. -/
def Node.displayedParts (parts : List (Node α)) : List (Node α) :=
  (parts.reverse.find? Node.isCaption).toList ++ parts.filter (!·.isCaption)

/-- An environment as it is displayed. -/
def Node.displayedEnvironment : Node α → Node α
  | .algorithm loc parts => .algorithm loc (Node.displayedParts parts)
  | node => node

/-- A document as it is displayed. -/
def Node.displayed : Node α → Node α
  | .root loc children => .root loc (children.map Node.displayedEnvironment)
  | node => node

/-- The phrases that are displayed of a document, in the order of the output. -/
def Node.displayedWords (document : Node α) : List (Phrase α) :=
  document.displayed.phrases.map Prod.snd

/-- Either there is no caption, or the last one has the text of the last caption. -/
theorem lastCaption?_cases (parts : List (Node α)) :
    (lastCaption? parts = none ∧ parts.reverse.find? Node.isCaption = none) ∨
    ∃ loc words, lastCaption? parts = some words ∧
      parts.reverse.find? Node.isCaption = some (.caption loc words) := by
  unfold lastCaption?
  induction parts.reverse with
  | nil => exact .inl ⟨rfl, rfl⟩
  | cons node rest ih =>
      cases node with
      | caption loc words => exact .inr ⟨loc, words, rfl, rfl⟩
      | _ => exact ih

section Rendering

variable (setup : Setup) {parts : List (Node α)}

theorem renderLastCaption_eq (parts : List (Node α)) :
    Node.renderLastCaption setup parts =
      (lastCaption? parts).elim (pure ()) fun words => captionLine setup (words.render setup) := by
  induction parts with
  | nil => rfl
  | cons part rest ih =>
      cases hpart : part.isCaption with
      | false => rw [renderLastCaption_cons hpart, lastCaption?_cons hpart, ih]
      | true =>
          cases part with
          | caption loc words =>
              rw [Node.renderLastCaption, lastCaption?_caption, ← isSome_lastCaption?, ih]
              cases lastCaption? rest <;> rfl
          | _ => cases hpart

theorem renderParts_eq (parts : List (Node α)) :
    Node.renderParts setup parts = Node.renderAll setup (parts.filter (!·.isCaption)) := by
  induction parts with
  | nil => rfl
  | cons part rest ih =>
      cases hpart : part.isCaption with
      | false =>
          rw [renderParts_cons hpart, List.filter_cons_of_pos (by rw [hpart]; rfl),
            Node.renderAll, ih]
      | true =>
          rw [List.filter_cons_of_neg (by rw [hpart]; exact Bool.false_ne_true), ← ih]
          cases part with
          | caption => rfl
          | _ => cases hpart

/-- Besides its captions nothing is left out of an algorithm. -/
theorem filter_displayedParts (parts : List (Node α)) :
    (Node.displayedParts parts).filter (!·.isCaption) = parts.filter (!·.isCaption) := by
  have hcaption : (parts.reverse.find? Node.isCaption).toList.filter (!·.isCaption) = [] := by
    rcases lastCaption?_cases parts with ⟨-, hnone⟩ | ⟨loc, words, -, hfind⟩
    · rw [hnone]
      rfl
    · rw [hfind]
      rfl
  rw [Node.displayedParts, List.filter_append, hcaption, List.filter_filter]
  simp only [Bool.and_self, List.nil_append]

theorem lastCaption?_filter (parts : List (Node α)) :
    lastCaption? (parts.filter (!·.isCaption)) = none := by
  rw [← Option.not_isSome_iff_eq_none, isSome_lastCaption?]
  simp

/-- The caption that is displayed stays the last one. -/
theorem lastCaption?_displayedParts (parts : List (Node α)) :
    lastCaption? (Node.displayedParts parts) = lastCaption? parts := by
  unfold Node.displayedParts
  rcases lastCaption?_cases parts with ⟨hlast, hnone⟩ | ⟨loc, words, hlast, hfind⟩
  · rw [hlast, hnone]
    exact lastCaption?_filter parts
  · rw [hlast, hfind]
    show lastCaption? (.caption loc words :: parts.filter (!·.isCaption)) = _
    rw [lastCaption?_caption, lastCaption?_filter]
    rfl

theorem Node.render_displayedEnvironment (node : Node α) :
    node.displayedEnvironment.render setup = node.render setup := by
  cases node with
  | algorithm loc parts =>
      rw [displayedEnvironment, render, render]
      simp only [← isSome_lastCaption?, renderLastCaption_eq, renderParts_eq,
        lastCaption?_displayedParts, filter_displayedParts]
  | _ => rfl

theorem Node.renderAll_displayedEnvironment (nodes : List (Node α)) :
    Node.renderAll setup (nodes.map Node.displayedEnvironment) = Node.renderAll setup nodes := by
  induction nodes with
  | nil => rfl
  | cons node rest ih =>
      rw [List.map_cons, renderAll, renderAll, ih, Node.render_displayedEnvironment]

/-- A document is rendered as it is displayed: captions that are not the last one of their
algorithm make no difference, and it does not matter where the last one stands. -/
theorem Node.rendering_displayed (tree : Node α) :
    tree.displayed.rendering setup = tree.rendering setup := by
  cases tree with
  | root loc children =>
      unfold rendering
      rw [displayed, render, render, Node.renderAll_displayedEnvironment]
  | _ => rfl

end Rendering

/-! ## Switches -/

/-- A leaf with the switches in force where it stands, from left to right. -/
structure Styled where
  switches : List Html.Span
  leaf : Leaf

mutual

/-- The leaves that are displayed of a phrase behind some switches. -/
def Phrase.styled (switches : List Html.Span) : Phrase α → List Styled
  | .mk _ items => Node.styled switches items

/-- The leaves that are displayed of some items behind some switches. -/
def Node.styled (switches : List Html.Span) : List (Node α) → List Styled
  | [] => []
  | .leaf _ item :: rest =>
    match item.switch? with
    | some switch => Node.styled (switches ++ [switch]) rest
    | none => ⟨switches, item⟩ :: Node.styled switches rest
  | .text words :: rest => words.styled switches ++ Node.styled switches rest
  | _ :: rest => Node.styled switches rest

end

end AlgoBox
