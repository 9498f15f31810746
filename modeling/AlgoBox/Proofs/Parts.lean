import AlgoBox.Proofs.Completeness
import AlgoBox.Proofs.Erasure

/-!
# Parts of a tree

The nodes directly below a node in the order in which they are written (`Node.parts`),
phrases and arms included, and the nodes of a tree at any depth (`Node.Within`).
Whatever stands in a document is one of a few kinds of node (`Constituent`), and of these
only a phrase can be written with nothing.
-/

namespace AlgoBox

open Grammar

variable {α β : Type}

/-! ## The parts -/

/-- The nodes directly below a node, in the order in which they are written. -/
def Node.parts : Node α → List (Node α)
  | .root _ children | .algorithm _ children | .algorithmic _ children | .block _ children =>
    children
  | .text words => words.items
  | .caption _ words | .comment _ words | .command _ _ words | .call _ _ words => [.text words]
  | .branch (.mk _ cond body) => .text cond :: body.toList
  | .conditional _ arms _ elseBody => arms.map .branch ++ elseBody.toList
  | .loop _ _ words body | .function _ _ _ words body => .text words :: body.toList
  | .bare _ | .leaf .. => []

/-- The node stands in the tree, at any depth. -/
inductive Node.Within (tree : Node α) : Node α → Prop
  | top : Node.Within tree tree
  | step {node part : Node α} : Node.Within tree node → part ∈ node.parts → Node.Within tree part

/-- What stands in a node is the node itself or stands in one of its parts. -/
theorem Node.within_iff {node inner : Node α} :
    node.Within inner ↔ inner = node ∨ ∃ part ∈ node.parts, part.Within inner := by
  constructor
  · intro h
    induction h with
    | top => exact .inl rfl
    | @step _ last _ hlast ih =>
        rcases ih with rfl | ⟨part, hpart, hwithin⟩
        · exact .inr ⟨last, hlast, .top⟩
        · exact .inr ⟨part, hpart, hwithin.step hlast⟩
  · rintro (rfl | ⟨part, hpart, hwithin⟩)
    · exact .top
    · induction hwithin with
      | top => exact .step .top hpart
      | step _ hlast ih => exact ih.step hlast

@[simp] theorem Node.loc_map (f : α → β) (node : Node α) : (node.map f).loc = f node.loc := by
  cases node with
  | text words => cases words; rfl
  | branch arm => cases arm; rfl
  | _ => rfl

theorem Node.parts_map (f : α → β) (node : Node α) :
    (node.map f).parts = node.parts.map (Node.map f) := by
  have hbody : ∀ body : Option (Node α),
      (Node.mapBody f body).toList = body.toList.map (Node.map f) := by
    intro body
    cases body <;> rfl
  cases node with
  | root loc children | algorithm loc children | algorithmic loc children
  | block loc children =>
      exact Node.mapAll_eq f children
  | text words =>
      obtain ⟨loc, items⟩ := words
      exact Node.mapAll_eq f items
  | branch arm =>
      obtain ⟨loc, cond, body⟩ := arm
      exact congrArg (Node.text (cond.map f) :: ·) (hbody body)
  | conditional loc arms hasElse elseBody =>
      simp only [Node.map, Node.parts, Branch.mapAll_eq, hbody, List.map_append, List.map_map]
      rfl
  | loop loc keyword cond body => exact congrArg (Node.text (cond.map f) :: ·) (hbody body)
  | function loc kind name params body =>
      exact congrArg (Node.text (params.map f) :: ·) (hbody body)
  | _ => rfl

theorem Node.Within.map (f : α → β) {tree node : Node α} (h : tree.Within node) :
    (tree.map f).Within (node.map f) := by
  induction h with
  | top => exact .top
  | step _ hpart ih =>
      refine ih.step ?_
      rw [Node.parts_map]
      exact List.mem_map_of_mem hpart

/-- What stands in a tree with other annotations stands in the tree, with its own. -/
theorem Node.Within.of_map {f : α → β} {tree : Node α} {node' : Node β}
    (h : (tree.map f).Within node') : ∃ node, tree.Within node ∧ node.map f = node' := by
  induction h with
  | top => exact ⟨tree, .top, rfl⟩
  | step _ hpart ih =>
      obtain ⟨node, hnode, rfl⟩ := ih
      rw [Node.parts_map] at hpart
      obtain ⟨part, hmem, rfl⟩ := List.mem_map.1 hpart
      exact ⟨part, hnode.step hmem, rfl⟩

/-! ## The tokens do not depend on the annotations -/

mutual

theorem Node.tokens_map (f : α → β) : ∀ node : Node α, (node.map f).tokens = node.tokens
  | .bare _ | .leaf .. => rfl
  | .root _ children => congrArg (· ++ _) (Node.tokensAll_map f children)
  | .algorithm _ children => by simp only [Node.map, Node.tokens, Node.tokensAll_map f children]
  | .algorithmic _ children => by simp only [Node.map, Node.tokens, Node.tokensAll_map f children]
  | .block _ children => Node.tokensAll_map f children
  | .text words => congrArg Token.braced (Phrase.tokens_map f words)
  | .caption _ words => by simp only [Node.map, Node.tokens, Phrase.tokens_map f words]
  | .comment _ words => by simp only [Node.map, Node.tokens, Phrase.tokens_map f words]
  | .command _ _ words => congrArg (_ :: ·) (Phrase.tokens_map f words)
  | .call _ _ args => by simp only [Node.map, Node.tokens, Phrase.tokens_map f args]
  | .branch arm => Branch.tokens_map f arm
  | .conditional _ arms _ elseBody => by
      simp only [Node.map, Node.tokens, Branch.tokensAll_map f arms, Node.tokensBody_map f elseBody]
  | .loop _ _ cond body => by
      simp only [Node.map, Node.tokens, Phrase.tokens_map f cond, Node.tokensBody_map f body]
  | .function _ _ _ params body => by
      simp only [Node.map, Node.tokens, Phrase.tokens_map f params, Node.tokensBody_map f body]

theorem Phrase.tokens_map (f : α → β) : ∀ words : Phrase α, (words.map f).tokens = words.tokens
  | .mk _ items => Node.tokensAll_map f items

theorem Branch.tokens_map (f : α → β) : ∀ arm : Branch α, (arm.map f).tokens = arm.tokens
  | .mk _ cond body => by
      simp only [Branch.map, Branch.tokens, Phrase.tokens_map f cond, Node.tokensBody_map f body]

theorem Node.tokensAll_map (f : α → β) : ∀ nodes : List (Node α),
    Node.tokensAll (Node.mapAll f nodes) = Node.tokensAll nodes
  | [] => rfl
  | node :: rest => by
      simp only [Node.mapAll, Node.tokensAll, Node.tokens_map f node, Node.tokensAll_map f rest]

theorem Branch.tokensAll_map (f : α → β) : ∀ (arms : List (Branch α)) {keyword : String},
    Branch.tokensAll keyword (Branch.mapAll f arms) = Branch.tokensAll keyword arms
  | [], _ => rfl
  | arm :: rest, _ => by
      simp only [Branch.mapAll, Branch.tokensAll, Branch.tokens_map f arm,
        Branch.tokensAll_map f rest]

theorem Node.tokensBody_map (f : α → β) : ∀ body : Option (Node α),
    Node.tokensBody (Node.mapBody f body) = Node.tokensBody body
  | none => rfl
  | some node => Node.tokens_map f node

end

/-! ## What may stand in a document -/

/-- A node that the grammar puts below a document. -/
inductive Constituent (form : Form) : Node α → Prop
  | environment {node : Node α} : Environment form node → Constituent form node
  | part {node : Node α} : Part form node → Constituent form node
  | piece {node : Node α} : Section form node → Constituent form node
  | statement {node : Node α} : Statement form node → Constituent form node
  | arm {arm : Branch α} : Arm form arm → Constituent form (.branch arm)
  | words {words : Phrase α} : Words form words → Constituent form (.text words)
  | item {node : Node α} : Item form node → Constituent form node

section Constituents

variable {form : Form} {node part : Node α} {words : Phrase α} {body : Option (Node α)}

theorem Words.parts (h : Words form words) (hpart : part ∈ (Node.text words).parts) :
    Item form part := by
  obtain ⟨hitems, -⟩ := h
  exact hitems part hpart

theorem Item.parts (h : Item form node) (hpart : part ∈ node.parts) : Item form part := by
  cases h with
  | leaf => cases hpart
  | group hitems => exact hitems part hpart

/-- The phrase and the body of an arm, a loop or a function. -/
theorem constituent_phrase_body (hwords : Words form words)
    (hbody : ∀ block ∈ body, Block form block) (hpart : part ∈ Node.text words :: body.toList) :
    Constituent form part := by
  rcases List.mem_cons.1 hpart with rfl | hmem
  · exact .words hwords
  · exact .piece (.block (hbody part (Option.mem_toList.1 hmem)))

theorem Statement.parts (h : Statement form node) (hpart : part ∈ node.parts) :
    Constituent form part := by
  cases h with
  | command _ hwords | comment hwords | call _ hwords =>
      cases List.mem_singleton.1 hpart
      exact .words hwords
  | conditional _ harms helse _ =>
      rcases List.mem_append.1 hpart with hmem | hmem
      · obtain ⟨arm, harm, rfl⟩ := List.mem_map.1 hmem
        exact .arm (harms arm harm)
      · exact .piece (.block (helse part (Option.mem_toList.1 hmem)))
  | loop _ hcond hbody => exact constituent_phrase_body hcond hbody hpart
  | function _ _ hparams hbody => exact constituent_phrase_body hparams hbody hpart

theorem Section.parts (h : Section form node) (hpart : part ∈ node.parts) :
    Constituent form part := by
  cases h with
  | precondition _ hwords =>
      cases List.mem_singleton.1 hpart
      exact .words hwords
  | block hblock =>
      obtain ⟨hchildren, -⟩ := hblock
      exact .statement (hchildren part hpart)

theorem Part.parts (h : Part form node) (hpart : part ∈ node.parts) : Constituent form part := by
  cases h with
  | caption hwords =>
      cases List.mem_singleton.1 hpart
      exact .words hwords
  | algorithmic h =>
      obtain ⟨hchildren, -⟩ := h
      exact .piece (hchildren part hpart)

theorem Environment.parts (h : Environment form node) (hpart : part ∈ node.parts) :
    Constituent form part := by
  cases h with
  | algorithm hparts => exact .part (hparts part hpart)
  | algorithmic h => exact Part.parts (.algorithmic h) hpart

/-- What stands directly below a constituent is one again. -/
theorem Constituent.parts (h : Constituent form node) (hpart : part ∈ node.parts) :
    Constituent form part := by
  cases h with
  | environment h => exact h.parts hpart
  | part h => exact h.parts hpart
  | piece h => exact h.parts hpart
  | statement h => exact h.parts hpart
  | arm h =>
      obtain ⟨hcond, hbody⟩ := h
      exact constituent_phrase_body hcond hbody hpart
  | words h => exact .item (h.parts hpart)
  | item h => exact .item (h.parts hpart)

theorem Document.parts (h : Document form node) (hpart : part ∈ node.parts) :
    Constituent form part := by
  obtain ⟨henvironments⟩ := h
  exact .environment (henvironments part hpart)

/-- What stands in a document is the document or a constituent. -/
theorem Document.within {tree : Node α} (h : Document form tree) (hnode : tree.Within node) :
    node = tree ∨ Constituent form node := by
  induction hnode with
  | top => exact .inl rfl
  | step _ hpart ih =>
      rcases ih with rfl | hconstituent
      · exact .inr (h.parts hpart)
      · exact .inr (hconstituent.parts hpart)

/-- A document stands in no document. -/
theorem Constituent.not_root {loc : α} {children : List (Node α)} :
    ¬Constituent form (.root loc children) := by
  rintro (h | h | h | h | h | h | h)
  · cases h with
    | algorithmic h => cases h
  · cases h with
    | algorithmic h => cases h
  · cases h with
    | block h => cases h
  all_goals cases h

/-- Behind a command there is a phrase. -/
theorem Constituent.words_of_command {loc : α} {name : String}
    (h : Constituent form (.command loc name words)) : Words form words := by
  rcases h with h | h | h | h | h | h | h
  · cases h with
    | algorithmic h => cases h
  · cases h with
    | algorithmic h => cases h
  · cases h with
    | precondition _ hwords => exact hwords
    | block h => cases h
  · cases h with
    | command _ hwords => exact hwords
  · cases h

/-- A phrase inside a document, a group as well. -/
theorem Constituent.words_of_text (h : Constituent form (.text words)) : Words form words := by
  rcases h with h | h | h | h | h | h | h
  · cases h with
    | algorithmic h => cases h
  · cases h with
    | algorithmic h => cases h
  · cases h with
    | block h => cases h
  · cases h
  · exact h
  · cases h with
    | group hitems hnone => exact .mk hitems hnone

/-- The node is a phrase. -/
def Node.IsText : Node α → Prop
  | .text _ => True
  | _ => False

/-- Only a phrase can be written with nothing. -/
theorem Constituent.tokens_ne_nil (h : Constituent form node) (hform : form.grouped)
    (htext : ¬node.IsText) : node.tokens ≠ [] := by
  cases h with
  | environment h => exact h.startsWith.ne_nil
  | part h => exact h.startsWith.ne_nil
  | piece h => exact (h.startsWith hform).ne_nil
  | statement h => exact h.startsWith.ne_nil
  | arm h =>
      obtain ⟨-, -⟩ := h
      exact List.cons_ne_nil _ _
  | words => exact absurd trivial htext
  | item h => exact h.startsWith.ne_nil

/-- A phrase with items is written with something. -/
theorem Words.tokens_ne_nil (h : Words form words) (hitems : words.items ≠ []) :
    words.tokens ≠ [] := by
  obtain ⟨hall, -⟩ := h
  exact mt (tokensAll_eq_nil fun item hitem => (hall item hitem).startsWith).1 hitems

end Constituents

end AlgoBox
