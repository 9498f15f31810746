import AlgoBox.Proofs.LayoutIndependence

/-!
# Rendering as a sequence of actions

What a tree is rendered by is a sequence of actions on the page (`Node.actions`). The sequence
depends on the tree and the options only; what an action does may depend on the page, for
instance whether a line is open. Rendering the tree is performing its actions one after the
other, up to the first fault (`Node.render_actions`), so the pages between two actions (`trail`)
are the steps of rendering.
-/

namespace AlgoBox

open Html Page

variable {α : Type}

namespace Html

/-- Something done to a page in one step. A line that is opened closes the open one first,
and a line that is joined is opened only if none is open. Text is held back until it is
released; `nameAlgorithm` writes the keyword of the algorithm counted last, behind the text
held back. -/
inductive Action where
  | openDiv (div : Div)
  | closeDiv
  | openBlock
  | closeBlock
  | openLine
  | joinLine
  | closeLine
  | openSpan (span : Span)
  | closeSpan
  | keyword (word : String)
  | nameAlgorithm
  | functionName (name : String)
  | math (body : String)
  | hold (text : String)
  | holdSymbol
  | release
  | countCaption
  | resetLineCount
  | fail (fault : RenderFault)

/-- Performs an action. -/
def Action.perform (setup : Setup) : Action → RenderM Unit
  | openDiv div => Page.openDiv div
  | closeDiv => Page.closeDiv
  | openBlock => Page.openBlock setup.options
  | closeBlock => Page.closeBlock
  | openLine => Page.openLine setup.options
  | joinLine => Page.joinLine setup.options
  | closeLine => Page.closeLine
  | openSpan span => emit (.openSpan span)
  | closeSpan => emit .closeSpan
  | keyword word => emit (.keyword word)
  | nameAlgorithm => do writeKeyword ("Algorithm " ++ toString (← get).captionCount)
  | functionName name => emit (.functionName name)
  | math body => emit (.math body (setup.typeset body))
  | hold text => holdText text
  | holdSymbol => do holdText ((← escapeValue setup.options.commentSymbol) ++ " ")
  | release => releaseText
  | countCaption => Page.countCaption
  | resetLineCount => Page.resetLineCount
  | fail fault => throw fault

/-- Performs actions one after the other. -/
def performAll (setup : Setup) : List Action → RenderM Unit
  | [] => return
  | action :: rest => do
    action.perform setup
    performAll setup rest

/-- The pages before, between and behind some actions; the last one is the page on which a
fault is met, if there is one. -/
def trail (setup : Setup) : List Action → Page → List Page
  | [], page => [page]
  | action :: rest, page =>
    match action.perform setup page with
    | .ok _ page' => page :: trail setup rest page'
    | .error _ page' => [page, page']

/-- The page that a computation leaves, with or without a fault. -/
def pageOf {β : Type} : EStateM.Result RenderFault Page β → Page
  | .ok _ page => page
  | .error _ page => page

section Performing

variable {setup : Setup}

@[simp]
theorem performAll_nil : performAll setup [] = pure () := rfl

@[simp]
theorem performAll_cons (action : Action) (rest : List Action) :
    performAll setup (action :: rest) = (do action.perform setup; performAll setup rest) := rfl

@[simp]
theorem performAll_append (l m : List Action) :
    performAll setup (l ++ m) = (do performAll setup l; performAll setup m) := by
  induction l with
  | nil => simp
  | cons action rest ih => simp [ih]

/-- The way through some actions ends on the page that they leave. -/
theorem getLast?_trail (actions : List Action) (page : Page) :
    (trail setup actions page).getLast? = some (pageOf (performAll setup actions page)) := by
  induction actions generalizing page with
  | nil => rfl
  | cons action rest ih =>
      rw [performAll_cons]
      show _ = some (pageOf (EStateM.bind (action.perform setup) _ page))
      unfold trail EStateM.bind
      cases action.perform setup page with
      | error fault page' => rfl
      | ok u page' =>
          dsimp only
          rw [List.getLast?_cons, ih page']
          rfl

end Performing

end Html

/-! ## The actions of a tree -/

/-- The actions for a leaf outside the reach of switches. -/
def Leaf.actions (leaf : Leaf) : List Action :=
  match leaf with
  | .ordinary content => [.hold (Text.escape content)]
  | .math body => [.release, .math body]
  | .special escape =>
    match escapeMarkup? escape with
    | some markup => [.hold markup]
    | none => [.fail (.unknownEscape escape)]
  | .bool keyword => [.release, .keyword (Text.lower keyword)]
  | .size _ | .font _ => [.fail (.unexpectedNode leaf.typeName)]

/-- The number of switches among some items. -/
def Node.switchCount : List (Node α) → Nat
  | [] => 0
  | .leaf _ item :: rest =>
    if item.switch?.isSome then Node.switchCount rest + 1 else Node.switchCount rest
  | _ :: rest => Node.switchCount rest

/-- The actions for a line that is a caption with some text. -/
def Html.captionActions (text : List Action) : List Action :=
  .openLine :: .nameAlgorithm :: (text ++ [.closeLine])

/-- The actions for a line that is a keyword. -/
def Html.keywordActions (word : String) : List Action :=
  [.openLine, .release, .keyword word]

/-- The actions for a name with something in parentheses. -/
def Html.applicationActions (name : String) (args : List Action) : List Action :=
  .release :: .functionName name :: .hold "(" :: (args ++ [.hold ")"])

mutual

/-- The actions for a node. -/
def Node.actions (options : Options) : Node α → List Action
  | .root _ children => .openDiv .document :: (Node.actionsAll options children ++ [.closeDiv])
  | .algorithm _ children =>
    (if children.any Node.isCaption then [.countCaption] else []) ++
      .openDiv (.algorithm (children.any Node.isCaption)) ::
        (Node.lastCaptionActions options children ++ Node.partsActions options children ++
          [.closeDiv])
  | .caption _ words => captionActions (words.actions options)
  | .algorithmic _ children =>
    (if options.lineNumber.isTrue then [.resetLineCount] else []) ++
      .openDiv (.algorithmic options.lineNumber.isTrue) ::
        (Node.actionsAll options children ++ [.closeDiv])
  | .block _ children => .openBlock :: (Node.actionsAll options children ++ [.closeBlock])
  | .function _ kind name params body =>
    keywordActions (Text.lower kind) ++ applicationActions name (params.actions options) ++
      Node.bodyActions options body ++ keywordActions ("end " ++ Text.lower kind)
  | .conditional _ branches hasElse elseBody =>
    Branch.actionsAll options branches ++
      (if hasElse then keywordActions "else" ++ Node.bodyActions options elseBody else []) ++
      keywordActions "end if"
  | .loop _ keyword cond body =>
    keywordActions (Text.lower keyword) ++ cond.actions options ++ [.release, .keyword "do"] ++
      Node.bodyActions options body ++ keywordActions ("end " ++ Text.lower keyword)
  | .command _ name words =>
    match commandLabel? name with
    | none => [.fail (.unexpectedCommand name)]
    | some label =>
      .openLine :: ((if label ≠ "" then [.release, .keyword label] else []) ++
        words.actions options)
  | .call _ name args => .joinLine :: applicationActions name (args.actions options)
  | .comment _ words =>
    .joinLine :: .release :: .openSpan .comment :: .holdSymbol ::
      (words.actions options ++ [.release, .closeSpan])
  | .text words => words.actions options
  | .leaf _ item => item.actions
  | node@(.bare _) | node@(.branch _) => [.fail (.unexpectedNode node.typeName)]

/-- The actions for a phrase. -/
def Phrase.actions (options : Options) : Phrase α → List Action
  | .mk _ items =>
    .release :: .openSpan .phrase :: (Node.itemsActions options items ++ .release ::
      (List.replicate (Node.switchCount items) .closeSpan ++ [.closeSpan]))

/-- The actions for the items of a phrase. The stretches that switches open stay open. -/
def Node.itemsActions (options : Options) : List (Node α) → List Action
  | [] => []
  | .leaf _ item :: rest =>
    match item.switch? with
    | some span => .release :: .openSpan span :: Node.itemsActions options rest
    | none => item.actions ++ Node.itemsActions options rest
  | node :: rest => node.actions options ++ Node.itemsActions options rest

/-- The actions for nodes one after the other. -/
def Node.actionsAll (options : Options) : List (Node α) → List Action
  | [] => []
  | node :: rest => node.actions options ++ Node.actionsAll options rest

/-- The actions for the last caption among some nodes. -/
def Node.lastCaptionActions (options : Options) : List (Node α) → List Action
  | [] => []
  | .caption _ words :: rest =>
    if rest.any Node.isCaption then Node.lastCaptionActions options rest
    else captionActions (words.actions options)
  | _ :: rest => Node.lastCaptionActions options rest

/-- The actions for nodes one after the other, captions left out. -/
def Node.partsActions (options : Options) : List (Node α) → List Action
  | [] => []
  | .caption .. :: rest => Node.partsActions options rest
  | node :: rest => node.actions options ++ Node.partsActions options rest

/-- The actions for arms one after the other. -/
def Branch.actionsAll (options : Options) : List (Branch α) → List Action
  | [] => []
  | .mk _ cond body :: rest =>
    keywordActions "if" ++ cond.actions options ++ [.release, .keyword "then"] ++
      Node.bodyActions options body ++ Branch.actionsAll options rest

/-- The actions for a body, if there is one. -/
def Node.bodyActions (options : Options) : Option (Node α) → List Action
  | none => []
  | some node => node.actions options

end

section Lists

variable {options : Options} {node : Node α} {rest : List (Node α)}

theorem itemsActions_cons (h : ¬node.IsLeaf) :
    Node.itemsActions options (node :: rest) =
      node.actions options ++ Node.itemsActions options rest := by
  cases node with
  | leaf => exact absurd trivial h
  | _ => rfl

theorem switchCount_cons (h : ¬node.IsLeaf) :
    Node.switchCount (node :: rest) = Node.switchCount rest := by
  cases node with
  | leaf => exact absurd trivial h
  | _ => rfl

theorem lastCaptionActions_cons (h : node.isCaption = false) :
    Node.lastCaptionActions options (node :: rest) = Node.lastCaptionActions options rest := by
  cases node with
  | caption => cases h
  | _ => rfl

theorem partsActions_cons (h : node.isCaption = false) :
    Node.partsActions options (node :: rest) =
      node.actions options ++ Node.partsActions options rest := by
  cases node with
  | caption => cases h
  | _ => rfl

end Lists

/-! ## Rendering performs the actions -/

section Render

variable (setup : Setup)

theorem Leaf.render_actions (item : Leaf) : item.render setup = performAll setup item.actions := by
  cases item with
  | special escape =>
      unfold Leaf.render Leaf.actions
      dsimp only
      cases escapeMarkup? escape with
      | some markup => simp [Action.perform]
      | none => simp [Action.perform]
  | _ => simp [Leaf.render, Leaf.actions, Action.perform, write, writeKeyword]

theorem closeSpans_actions (count : Nat) :
    closeSpans count = performAll setup (List.replicate count .closeSpan) := by
  induction count with
  | zero => rfl
  | succ count ih => rw [closeSpans, List.replicate_succ, performAll_cons, ← ih, Action.perform]

theorem captionLine_actions {text : RenderM Unit} {actions : List Action}
    (h : text = performAll setup actions) :
    captionLine setup text = performAll setup (captionActions actions) := by
  simp [captionLine, captionActions, Action.perform, h]

end Render

mutual

theorem Node.render_actions (setup : Setup) : ∀ node : Node α,
    node.render setup = performAll setup (node.actions setup.options)
  | .bare _ | .branch _ => by simp [Node.render, Node.actions, Action.perform]
  | .leaf _ item => item.render_actions setup
  | .root _ children => by
    simp [Node.render, Node.actions, Action.perform, Node.renderAll_actions setup children]
  | .algorithm _ children => by
    rw [Node.render, Node.actions, Node.renderLastCaption_actions setup children,
      Node.renderParts_actions setup children]
    dsimp only
    split <;> simp [Action.perform]
  | .caption _ words => captionLine_actions setup (Phrase.render_actions setup words)
  | .algorithmic _ children => by
    rw [Node.render, Node.actions, Node.renderAll_actions setup children]
    dsimp only
    split <;> simp [Action.perform]
  | .block _ children => by
    simp [Node.render, Node.actions, Action.perform, Node.renderAll_actions setup children]
  | .function _ kind name params body => by
    simp [Node.render, Node.actions, keywordActions, applicationActions, Action.perform, write,
      writeKeyword, Phrase.render_actions setup params, Node.renderBody_actions setup body]
  | .conditional _ branches hasElse elseBody => by
    rw [Node.render, Node.actions, Branch.renderAll_actions setup branches,
      Node.renderBody_actions setup elseBody]
    dsimp only
    cases hasElse <;> simp [keywordActions, Action.perform, write, writeKeyword]
  | .loop _ keyword cond body => by
    simp [Node.render, Node.actions, keywordActions, Action.perform, write,
      writeKeyword, Phrase.render_actions setup cond, Node.renderBody_actions setup body]
  | .command _ name words => by
    rw [Node.render, Node.actions, Phrase.render_actions setup words]
    cases commandLabel? name with
    | none => simp [Action.perform]
    | some label =>
        dsimp only
        split <;> simp [Action.perform, write, writeKeyword]
  | .call _ name args => by
    simp [Node.render, Node.actions, applicationActions, Action.perform, write,
      Phrase.render_actions setup args]
  | .comment _ words => by
    simp [Node.render, Node.actions, Action.perform, write, Phrase.render_actions setup words]
  | .text words => Phrase.render_actions setup words

theorem Phrase.render_actions (setup : Setup) : ∀ words : Phrase α,
    words.render setup = performAll setup (words.actions setup.options)
  | .mk _ items => by
    simp [Phrase.render, Phrase.actions, Action.perform, write,
      Node.renderItems_actions setup items, closeSpans_actions setup]

/-- Besides performing the actions, rendering items counts their switches. -/
theorem Node.renderItems_actions (setup : Setup) : ∀ items : List (Node α),
    Node.renderItems setup items = (do
      performAll setup (Node.itemsActions setup.options items)
      return Node.switchCount items)
  | [] => rfl
  | node :: rest => by
    have hrest := Node.renderItems_actions setup rest
    have hnode := Node.render_actions setup node
    by_cases hleaf : node.IsLeaf
    · cases node with
      | leaf _ item =>
          rw [Node.renderItems, Node.itemsActions, Node.switchCount, hrest]
          cases hswitch : item.switch? with
          | some span => simp [Action.perform, write]
          | none => simp [item.render_actions setup]
      | _ => exact hleaf.elim
    · rw [renderItems_cons hleaf, itemsActions_cons hleaf, switchCount_cons hleaf, hnode, hrest]
      simp

theorem Node.renderAll_actions (setup : Setup) : ∀ nodes : List (Node α),
    Node.renderAll setup nodes = performAll setup (Node.actionsAll setup.options nodes)
  | [] => rfl
  | node :: rest => by
    simp [Node.renderAll, Node.actionsAll, Node.render_actions setup node,
      Node.renderAll_actions setup rest]

theorem Node.renderLastCaption_actions (setup : Setup) : ∀ nodes : List (Node α),
    Node.renderLastCaption setup nodes =
      performAll setup (Node.lastCaptionActions setup.options nodes)
  | [] => rfl
  | node :: rest => by
    have hrest := Node.renderLastCaption_actions setup rest
    cases hcaption : node.isCaption with
    | true =>
        cases node with
        | caption _ words =>
            have hline := captionLine_actions setup (Phrase.render_actions setup words)
            rw [Node.renderLastCaption, Node.lastCaptionActions, hrest, hline]
            split <;> rfl
        | _ => cases hcaption
    | false =>
        rw [renderLastCaption_cons hcaption, lastCaptionActions_cons hcaption]
        exact hrest

theorem Node.renderParts_actions (setup : Setup) : ∀ nodes : List (Node α),
    Node.renderParts setup nodes = performAll setup (Node.partsActions setup.options nodes)
  | [] => rfl
  | node :: rest => by
    have hrest := Node.renderParts_actions setup rest
    have hnode := Node.render_actions setup node
    cases hcaption : node.isCaption with
    | true =>
        cases node with
        | caption => exact hrest
        | _ => cases hcaption
    | false =>
        rw [renderParts_cons hcaption, partsActions_cons hcaption, hnode, hrest]
        simp

theorem Branch.renderAll_actions (setup : Setup) : ∀ arms : List (Branch α),
    Branch.renderAll setup arms = performAll setup (Branch.actionsAll setup.options arms)
  | [] => rfl
  | .mk _ cond body :: rest => by
    simp [Branch.renderAll, Branch.actionsAll, keywordActions, Action.perform, write,
      writeKeyword, Phrase.render_actions setup cond, Node.renderBody_actions setup body,
      Branch.renderAll_actions setup rest]

theorem Node.renderBody_actions (setup : Setup) : ∀ body : Option (Node α),
    Node.renderBody setup body = performAll setup (Node.bodyActions setup.options body)
  | none => rfl
  | some node => Node.render_actions setup node

end

end AlgoBox
