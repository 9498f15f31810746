import AlgoBox.Proofs.LayoutIndependence

/-!
# Rendering with two setups

A tree is rendered with two setups in the same way, step by step. So a relation that holds
between the steps of the one rendering and those of the other, and of computations in a row
if it holds of each (`Relates`), holds of the renderings of every tree (`Node.related`).
Nothing needs to be known of the tree.
-/

namespace AlgoBox

open Html Page

variable {α : Type}

/-- A relation is kept by the steps of the rendering with two setups. A step reads the
options of its own setup. -/
structure Html.Relates (setup setup' : Setup)
    (R : ∀ {β : Type}, RenderM β → RenderM β → Prop) : Prop where
  lineNumber : setup.options.lineNumber = setup'.options.lineNumber
  pure {β : Type} (b : β) : R (pure b) (pure b)
  throw {β : Type} (fault : RenderFault) : R (throw fault : RenderM β) (throw fault)
  bind {β γ : Type} {p q : RenderM β} {k k' : β → RenderM γ} :
    R p q → (∀ b, R (k b) (k' b)) → R (p >>= k) (q >>= k')
  holdText (text : String) : R (holdText text) (holdText text)
  releaseText : R releaseText releaseText
  writeKeyword (word : String) : R (writeKeyword word) (writeKeyword word)
  functionName (name : String) : R (write (.functionName name)) (write (.functionName name))
  math (body : String) : R (write (.math body (setup.typeset body)))
    (write (.math body (setup'.typeset body)))
  openSpan {span : Html.Span} (h : span ≠ .comment) :
    R (write (.openSpan span)) (write (.openSpan span))
  closeSpan : R (emit .closeSpan) (emit .closeSpan)
  comment {words words' : RenderM Unit} (h : R words words') :
    R (do
        write (.openSpan .comment)
        Page.holdText ((← escapeValue setup.options.commentSymbol) ++ " ")
        words
        write .closeSpan)
      (do
        write (.openSpan .comment)
        Page.holdText ((← escapeValue setup'.options.commentSymbol) ++ " ")
        words'
        write .closeSpan)
  openLine : R (openLine setup.options) (openLine setup'.options)
  joinLine : R (joinLine setup.options) (joinLine setup'.options)
  captionLine {text text' : RenderM Unit} (h : R text text') :
    R (captionLine setup text) (captionLine setup' text')
  openDiv (div : Div) : R (openDiv div) (openDiv div)
  closeDiv : R closeDiv closeDiv
  openBlock : R (openBlock setup.options) (openBlock setup'.options)
  closeBlock : R closeBlock closeBlock
  countCaption : R countCaption countCaption
  resetLineCount : R resetLineCount resetLineCount

section Trees

variable {setup setup' : Setup} {R : ∀ {β : Type}, RenderM β → RenderM β → Prop}

namespace Html.Relates

variable (h : Relates setup setup' R)
include h

/-- Computations in a row. -/
theorem seq {p q : RenderM Unit} {p' q' : RenderM Unit} (hp : R p q) (hp' : R p' q') :
    R (do p; p') (do q; q') := h.bind hp fun _ => hp'

/-- In front of a computation stands another one, in both renderings or in neither. -/
theorem when (c : Prop) [Decidable c] {p q : RenderM Unit} {p' q' : RenderM Unit} (hp : R p q)
    (hp' : R p' q') : R (if c then do p; p' else p') (if c then do q; q' else q') := by
  split
  · exact h.seq hp hp'
  · exact hp'

theorem closeSpans : ∀ count : Nat, R (closeSpans count) (closeSpans count)
  | 0 => h.pure ()
  | count + 1 => h.seq h.closeSpan (closeSpans count)

end Html.Relates

variable (h : Relates setup setup' R)
include h

theorem Leaf.related (item : Leaf) : R (item.render setup) (item.render setup') := by
  cases item with
  | ordinary content => exact h.holdText _
  | math body => exact h.math body
  | bool keyword => exact h.writeKeyword _
  | size | font => exact h.throw _
  | special escape =>
      unfold Leaf.render
      dsimp only
      cases escapeMarkup? escape with
      | some markup => exact h.holdText markup
      | none => exact h.throw _

end Trees

mutual

theorem Node.related {setup setup' : Setup} {R : ∀ {β : Type}, RenderM β → RenderM β → Prop}
    (h : Relates setup setup' R) : ∀ node : Node α, R (node.render setup) (node.render setup')
  | .bare _ | .branch _ => h.throw _
  | .leaf _ item => item.related h
  | .root _ children =>
    h.seq (h.openDiv _) (h.seq (Node.related_all h children) h.closeDiv)
  | .algorithm _ children => by
    have hlast := Node.related_lastCaption h children
    have hparts := Node.related_parts h children
    rw [Node.render, Node.render]
    exact h.when _ h.countCaption (h.seq (h.openDiv _) (h.seq hlast (h.seq hparts h.closeDiv)))
  | .algorithmic _ children => by
    have hchildren := Node.related_all h children
    rw [Node.render, Node.render, h.lineNumber]
    exact h.when _ h.resetLineCount (h.seq (h.openDiv _) (h.seq hchildren h.closeDiv))
  | .block _ children =>
    h.seq h.openBlock (h.seq (Node.related_all h children) h.closeBlock)
  | .text words => words.related h
  | .caption _ words => h.captionLine (words.related h)
  | .comment _ words => h.seq h.joinLine (h.comment (words.related h))
  | .command _ name words => by
    have hwords := words.related h
    rw [Node.render, Node.render]
    cases commandLabel? name with
    | none => exact h.throw _
    | some label => exact h.seq h.openLine (h.when _ (h.writeKeyword label) hwords)
  | .call _ _ args =>
    h.seq h.joinLine (h.seq (h.functionName _) (h.seq (h.holdText _)
      (h.seq (args.related h) (h.holdText _))))
  | .conditional _ branches hasElse elseBody => by
    have harms := Branch.related_all h branches
    have helse := Node.related_body h elseBody
    have hend := h.seq h.openLine (h.writeKeyword "end if")
    rw [Node.render, Node.render]
    refine h.seq harms ?_
    dsimp only
    split
    · exact h.seq h.openLine (h.seq (h.writeKeyword _) (h.seq helse hend))
    · exact hend
  | .loop _ _ cond body =>
    h.seq h.openLine (h.seq (h.writeKeyword _) (h.seq (cond.related h) (h.seq (h.writeKeyword _)
      (h.seq (Node.related_body h body) (h.seq h.openLine (h.writeKeyword _))))))
  | .function _ _ _ params body =>
    h.seq h.openLine (h.seq (h.writeKeyword _) (h.seq (h.functionName _) (h.seq (h.holdText _)
      (h.seq (params.related h) (h.seq (h.holdText _) (h.seq (Node.related_body h body)
        (h.seq h.openLine (h.writeKeyword _))))))))

theorem Phrase.related {setup setup' : Setup} {R : ∀ {β : Type}, RenderM β → RenderM β → Prop}
    (h : Relates setup setup' R) :
    ∀ words : Phrase α, R (words.render setup) (words.render setup')
  | .mk _ items =>
    h.seq (h.openSpan nofun) (h.bind (Node.related_items h items) fun _ =>
      h.seq h.releaseText (h.seq (h.closeSpans _) h.closeSpan))

theorem Node.related_items {setup setup' : Setup}
    {R : ∀ {β : Type}, RenderM β → RenderM β → Prop} (h : Relates setup setup' R) :
    ∀ items : List (Node α), R (Node.renderItems setup items) (Node.renderItems setup' items)
  | [] => h.pure 0
  | node :: rest => by
    have hrest := Node.related_items h rest
    have hnode := Node.related h node
    by_cases hleaf : node.IsLeaf
    · cases node with
      | leaf _ item =>
          have hitem := item.related h
          rw [Node.renderItems, Node.renderItems]
          cases hswitch : item.switch? with
          | none => exact h.bind hitem fun _ => hrest
          | some span =>
              -- the stretch is opened here and closed at the end of the phrase
              have hspan : span ≠ .comment := by
                rintro rfl
                cases item <;> cases hswitch
              exact h.bind (h.openSpan hspan) fun _ => h.bind hrest fun _ => h.pure _
      | _ => exact hleaf.elim
    · rw [renderItems_cons hleaf, renderItems_cons hleaf]
      exact h.bind hnode fun _ => hrest

theorem Node.related_all {setup setup' : Setup}
    {R : ∀ {β : Type}, RenderM β → RenderM β → Prop} (h : Relates setup setup' R) :
    ∀ nodes : List (Node α), R (Node.renderAll setup nodes) (Node.renderAll setup' nodes)
  | [] => h.pure ()
  | node :: rest => h.seq (Node.related h node) (Node.related_all h rest)

theorem Node.related_lastCaption {setup setup' : Setup}
    {R : ∀ {β : Type}, RenderM β → RenderM β → Prop} (h : Relates setup setup' R) :
    ∀ nodes : List (Node α),
      R (Node.renderLastCaption setup nodes) (Node.renderLastCaption setup' nodes)
  | [] => h.pure ()
  | node :: rest => by
    have hrest := Node.related_lastCaption h rest
    cases hcaption : node.isCaption with
    | true =>
        cases node with
        | caption _ words =>
            have hline := h.captionLine (words.related h)
            rw [Node.renderLastCaption, Node.renderLastCaption]
            split
            · exact hrest
            · exact hline
        | _ => cases hcaption
    | false =>
        rw [renderLastCaption_cons hcaption, renderLastCaption_cons hcaption]
        exact hrest

theorem Node.related_parts {setup setup' : Setup}
    {R : ∀ {β : Type}, RenderM β → RenderM β → Prop} (h : Relates setup setup' R) :
    ∀ nodes : List (Node α), R (Node.renderParts setup nodes) (Node.renderParts setup' nodes)
  | [] => h.pure ()
  | node :: rest => by
    have hrest := Node.related_parts h rest
    have hnode := Node.related h node
    cases hcaption : node.isCaption with
    | true =>
        cases node with
        | caption => exact hrest
        | _ => cases hcaption
    | false =>
        rw [renderParts_cons hcaption, renderParts_cons hcaption]
        exact h.seq hnode hrest

theorem Branch.related_all {setup setup' : Setup}
    {R : ∀ {β : Type}, RenderM β → RenderM β → Prop} (h : Relates setup setup' R) :
    ∀ arms : List (Branch α), R (Branch.renderAll setup arms) (Branch.renderAll setup' arms)
  | [] => h.pure ()
  | .mk _ cond body :: rest =>
    h.seq h.openLine (h.seq (h.writeKeyword _) (h.seq (cond.related h) (h.seq (h.writeKeyword _)
      (h.seq (Node.related_body h body) (Branch.related_all h rest)))))

theorem Node.related_body {setup setup' : Setup}
    {R : ∀ {β : Type}, RenderM β → RenderM β → Prop} (h : Relates setup setup' R) :
    ∀ body : Option (Node α), R (Node.renderBody setup body) (Node.renderBody setup' body)
  | none => h.pure ()
  | some node => Node.related h node

end

end AlgoBox
