import AlgoBox.Node.Basic

/-!
# Trees without annotations

What erasing the annotations does to each kind of node. Lists and bodies are
erased element by element.
-/

namespace AlgoBox

variable {α β γ : Type}

theorem Node.mapAll_eq (f : α → β) (nodes : List (Node α)) :
    Node.mapAll f nodes = nodes.map (Node.map f) := by
  induction nodes with
  | nil => rfl
  | cons node rest ih => rw [Node.mapAll, ih, List.map_cons]

theorem Branch.mapAll_eq (f : α → β) (arms : List (Branch α)) :
    Branch.mapAll f arms = arms.map (Branch.map f) := by
  induction arms with
  | nil => rfl
  | cons arm rest ih => rw [Branch.mapAll, ih, List.map_cons]

theorem Node.mapBody_eq (f : α → β) (body : Option (Node α)) :
    Node.mapBody f body = body.map (Node.map f) := by
  cases body <;> rfl

/-- A phrase without its annotations. -/
def Phrase.erase (phrase : Phrase α) : Phrase Unit := phrase.map fun _ => ()

/-- An arm without its annotations. -/
def Branch.erase (arm : Branch α) : Branch Unit := arm.map fun _ => ()

namespace Node

variable {loc : α} {name kind keyword : String} {words : Phrase α}
  {children : List (Node α)} {body : Option (Node α)}

@[simp] theorem erase_root : (root loc children).erase = .root () (children.map erase) :=
  congrArg (Node.root ()) (mapAll_eq _ children)

@[simp] theorem erase_algorithm :
    (algorithm loc children).erase = .algorithm () (children.map erase) :=
  congrArg (Node.algorithm ()) (mapAll_eq _ children)

@[simp] theorem erase_algorithmic :
    (algorithmic loc children).erase = .algorithmic () (children.map erase) :=
  congrArg (Node.algorithmic ()) (mapAll_eq _ children)

@[simp] theorem erase_block : (block loc children).erase = .block () (children.map erase) :=
  congrArg (Node.block ()) (mapAll_eq _ children)

@[simp] theorem erase_text : (text words).erase = .text words.erase := rfl

@[simp] theorem erase_caption : (caption loc words).erase = .caption () words.erase := rfl

@[simp] theorem erase_comment : (comment loc words).erase = .comment () words.erase := rfl

@[simp] theorem erase_command :
    (command loc name words).erase = .command () name words.erase := rfl

@[simp] theorem erase_call : (call loc name words).erase = .call () name words.erase := rfl

@[simp] theorem erase_conditional {arms : List (Branch α)} {hasElse : Bool} :
    (conditional loc arms hasElse body).erase =
      .conditional () (arms.map Branch.erase) hasElse (body.map erase) := by
  show Node.conditional () (Branch.mapAll _ arms) hasElse (mapBody _ body) = _
  rw [Branch.mapAll_eq, mapBody_eq]
  rfl

@[simp] theorem erase_loop :
    (loop loc keyword words body).erase = .loop () keyword words.erase (body.map erase) :=
  congrArg (Node.loop () keyword words.erase) (mapBody_eq _ body)

@[simp] theorem erase_function :
    (function loc kind name words body).erase =
      .function () kind name words.erase (body.map erase) :=
  congrArg (Node.function () kind name words.erase) (mapBody_eq _ body)

@[simp] theorem erase_leaf {item : Leaf} : (leaf loc item).erase = .leaf () item := rfl

end Node

@[simp] theorem Phrase.erase_mk {loc : α} {items : List (Node α)} :
    (Phrase.mk loc items).erase = .mk () (items.map Node.erase) :=
  congrArg (Phrase.mk ()) (Node.mapAll_eq _ items)

@[simp] theorem Branch.erase_mk {loc : α} {cond : Phrase α} {body : Option (Node α)} :
    (Branch.mk loc cond body).erase = .mk () cond.erase (body.map Node.erase) :=
  congrArg (Branch.mk () cond.erase) (Node.mapBody_eq _ body)

/-! ## Changing annotations that are then erased -/

mutual

theorem Node.map_map (f : α → β) (g : β → γ) : ∀ node : Node α,
    (node.map f).map g = node.map (g ∘ f)
  | .bare _ | .leaf .. => rfl
  | .root _ children => congrArg (Node.root _) (Node.mapAll_mapAll f g children)
  | .algorithm _ children => congrArg (Node.algorithm _) (Node.mapAll_mapAll f g children)
  | .algorithmic _ children => congrArg (Node.algorithmic _) (Node.mapAll_mapAll f g children)
  | .block _ children => congrArg (Node.block _) (Node.mapAll_mapAll f g children)
  | .text words => congrArg Node.text (Phrase.map_map f g words)
  | .caption _ words => congrArg (Node.caption _) (Phrase.map_map f g words)
  | .comment _ words => congrArg (Node.comment _) (Phrase.map_map f g words)
  | .command _ name words => congrArg (Node.command _ name) (Phrase.map_map f g words)
  | .call _ name args => congrArg (Node.call _ name) (Phrase.map_map f g args)
  | .branch arm => congrArg Node.branch (Branch.map_map f g arm)
  | .conditional _ arms hasElse elseBody => by
      simp only [Node.map, Branch.mapAll_mapAll f g arms, Node.mapBody_mapBody f g elseBody,
        Function.comp_apply]
  | .loop _ keyword cond body => by
      simp only [Node.map, Phrase.map_map f g cond, Node.mapBody_mapBody f g body,
        Function.comp_apply]
  | .function _ kind name params body => by
      simp only [Node.map, Phrase.map_map f g params, Node.mapBody_mapBody f g body,
        Function.comp_apply]

theorem Phrase.map_map (f : α → β) (g : β → γ) : ∀ words : Phrase α,
    (words.map f).map g = words.map (g ∘ f)
  | .mk _ items => congrArg (Phrase.mk _) (Node.mapAll_mapAll f g items)

theorem Branch.map_map (f : α → β) (g : β → γ) : ∀ arm : Branch α,
    (arm.map f).map g = arm.map (g ∘ f)
  | .mk _ cond body => by
      simp only [Branch.map, Phrase.map_map f g cond, Node.mapBody_mapBody f g body,
        Function.comp_apply]

theorem Node.mapAll_mapAll (f : α → β) (g : β → γ) : ∀ nodes : List (Node α),
    Node.mapAll g (Node.mapAll f nodes) = Node.mapAll (g ∘ f) nodes
  | [] => rfl
  | node :: rest => by simp only [Node.mapAll, Node.map_map f g node, Node.mapAll_mapAll f g rest]

theorem Branch.mapAll_mapAll (f : α → β) (g : β → γ) : ∀ arms : List (Branch α),
    Branch.mapAll g (Branch.mapAll f arms) = Branch.mapAll (g ∘ f) arms
  | [] => rfl
  | arm :: rest => by
      simp only [Branch.mapAll, Branch.map_map f g arm, Branch.mapAll_mapAll f g rest]

theorem Node.mapBody_mapBody (f : α → β) (g : β → γ) : ∀ body : Option (Node α),
    Node.mapBody g (Node.mapBody f body) = Node.mapBody (g ∘ f) body
  | none => rfl
  | some node => congrArg some (Node.map_map f g node)

end

mutual

theorem Node.map_id : ∀ node : Node α, node.map id = node
  | .bare _ | .leaf .. => rfl
  | .root _ children => congrArg (Node.root _) (Node.mapAll_id children)
  | .algorithm _ children => congrArg (Node.algorithm _) (Node.mapAll_id children)
  | .algorithmic _ children => congrArg (Node.algorithmic _) (Node.mapAll_id children)
  | .block _ children => congrArg (Node.block _) (Node.mapAll_id children)
  | .text words => congrArg Node.text (Phrase.map_id words)
  | .caption _ words => congrArg (Node.caption _) (Phrase.map_id words)
  | .comment _ words => congrArg (Node.comment _) (Phrase.map_id words)
  | .command _ name words => congrArg (Node.command _ name) (Phrase.map_id words)
  | .call _ name args => congrArg (Node.call _ name) (Phrase.map_id args)
  | .branch arm => congrArg Node.branch (Branch.map_id arm)
  | .conditional _ arms hasElse elseBody => by
      simp only [Node.map, Branch.mapAll_id arms, Node.mapBody_id elseBody, id_eq]
  | .loop _ keyword cond body => by
      simp only [Node.map, Phrase.map_id cond, Node.mapBody_id body, id_eq]
  | .function _ kind name params body => by
      simp only [Node.map, Phrase.map_id params, Node.mapBody_id body, id_eq]

theorem Phrase.map_id : ∀ words : Phrase α, words.map id = words
  | .mk _ items => congrArg (Phrase.mk _) (Node.mapAll_id items)

theorem Branch.map_id : ∀ arm : Branch α, arm.map id = arm
  | .mk _ cond body => by
      simp only [Branch.map, Phrase.map_id cond, Node.mapBody_id body, id_eq]

theorem Node.mapAll_id : ∀ nodes : List (Node α), Node.mapAll id nodes = nodes
  | [] => rfl
  | node :: rest => by simp only [Node.mapAll, Node.map_id node, Node.mapAll_id rest]

theorem Branch.mapAll_id : ∀ arms : List (Branch α), Branch.mapAll id arms = arms
  | [] => rfl
  | arm :: rest => by simp only [Branch.mapAll, Branch.map_id arm, Branch.mapAll_id rest]

theorem Node.mapBody_id : ∀ body : Option (Node α), Node.mapBody id body = body
  | none => rfl
  | some node => congrArg some (Node.map_id node)

end

@[simp] theorem Node.erase_map (f : α → β) (node : Node α) : (node.map f).erase = node.erase :=
  Node.map_map f _ node

end AlgoBox
