import AlgoBox.Node.Grammar
import AlgoBox.Proofs.Token
import Mathlib.Data.List.Chain

/-!
# Derivation trees

The grammar as a matter of trees: which nodes may stand where (`Item`,
`Statement`, `Section`, `Part`, `Environment`, `Document`), and the tokens that
a node is written with (`Node.tokens`), one equation for each production. A
sentence is what some document is written with.

A `Form` says what is asked of a tree beyond the productions. `Form.any` asks
nothing: blocks may be empty and follow one another. `Form.grouping` asks that
runs of statements are grouped into maximal, non-empty blocks.
-/

namespace AlgoBox

open Grammar

variable {α β : Type}

/-! ## The tokens of a tree -/

/-- The token of a leaf. -/
def Leaf.token : Leaf → Token
  | .ordinary content => .ordinary content
  | .math body => .math body
  | .special escape => .special escape
  | .bool keyword => .word keyword
  | .size name | .font name => .word name

namespace Token

/-- Tokens between braces. -/
def braced (tokens : List Token) : List Token := .openBrace :: (tokens ++ [.closeBrace])

/-- A name between braces. -/
def bracedName (name : String) : List Token := [.openBrace, .ordinary name, .closeBrace]

/-- The opening of an environment. -/
def opening (name : String) : List Token := .word "begin" :: bracedName name

/-- The closing of an environment. -/
def closing (name : String) : List Token := .word "end" :: bracedName name

end Token

open Token

mutual

/-- The tokens that a node is written with. A node that the grammar does not
know has none. -/
def Node.tokens : Node α → List Token
  | .bare _ => []
  | .root _ children => Node.tokensAll children ++ [.endOfSource]
  | .algorithm _ children =>
    opening algorithmName ++ (Node.tokensAll children ++ closing algorithmName)
  | .algorithmic _ children =>
    opening algorithmicName ++ (Node.tokensAll children ++ closing algorithmicName)
  | .block _ children => Node.tokensAll children
  | .text words => braced words.tokens
  | .caption _ words => .word "caption" :: braced words.tokens
  | .comment _ words => .word "COMMENT" :: braced words.tokens
  | .command _ name words => .word name :: words.tokens
  | .call _ name args => .word "CALL" :: (bracedName name ++ braced args.tokens)
  | .branch arm => arm.tokens
  | .conditional _ branches hasElse elseBody =>
    Branch.tokensAll "IF" branches ++ ((if hasElse then [.word "ELSE"] else [])
      ++ (Node.tokensBody elseBody ++ [.word "ENDIF"]))
  | .loop _ keyword cond body =>
    .word keyword :: (braced cond.tokens ++ (Node.tokensBody body ++ [.word ("END" ++ keyword)]))
  | .function _ kind name params body =>
    .word kind :: (bracedName name ++ (braced params.tokens
      ++ (Node.tokensBody body ++ [.word ("END" ++ kind)])))
  | .leaf _ item => [item.token]

/-- The tokens of a phrase. -/
def Phrase.tokens : Phrase α → List Token
  | .mk _ items => Node.tokensAll items

/-- The tokens of an arm behind its keyword. -/
def Branch.tokens : Branch α → List Token
  | .mk _ cond body => braced cond.tokens ++ Node.tokensBody body

/-- The tokens of some nodes in a row. -/
def Node.tokensAll : List (Node α) → List Token
  | [] => []
  | node :: rest => node.tokens ++ Node.tokensAll rest

/-- The tokens of some arms in a row, the first one behind a given keyword. -/
def Branch.tokensAll (keyword : String) : List (Branch α) → List Token
  | [] => []
  | arm :: rest => .word keyword :: (arm.tokens ++ Branch.tokensAll "ELIF" rest)

/-- The tokens of a body. -/
def Node.tokensBody : Option (Node α) → List Token
  | none => []
  | some node => node.tokens

end

theorem Node.tokensAll_append (l m : List (Node α)) :
    Node.tokensAll (l ++ m) = Node.tokensAll l ++ Node.tokensAll m := by
  induction l with
  | nil => rfl
  | cons node rest ih =>
      simp only [List.cons_append, Node.tokensAll, ih, List.append_assoc]

/-! ## The shape of a tree -/

/-- What is asked of a tree beyond the productions: the tokens that leaves and names may be
written with, whether blocks hold something and no block follows a block (`grouped`), and
whether no run of ordinary characters follows another one (`apart`). -/
structure Form where
  admits : Token → Prop
  grouped : Prop
  apart : Prop

/-- Nothing is asked. -/
def Form.any : Form := ⟨fun _ => True, False, False⟩

/-- Statements are grouped into maximal, non-empty blocks. -/
def Form.grouping : Form := ⟨fun _ => True, True, False⟩

/-- A leaf of the grammar: a keyword is one of its kind. -/
def Leaf.IsKnown : Leaf → Prop
  | .ordinary _ | .math _ | .special _ => True
  | .bool keyword => keyword ∈ boolWords
  | .size name => name ∈ sizeWords
  | .font name => name ∈ fontWords

/-- The node is a run of ordinary characters. -/
def Node.IsOrdinary : Node α → Prop
  | .leaf _ (.ordinary _) => True
  | _ => False

/-- The node is a block. -/
def Node.IsBlock : Node α → Prop
  | .block .. => True
  | _ => False

/-- Neighbours in a list do not both have a property. -/
def NoneAdjacent (P : β → Prop) (l : List β) : Prop := l.IsChain fun a b => ¬(P a ∧ P b)

/-- An item of a phrase: a leaf or a group of items. -/
inductive Item (form : Form) : Node α → Prop
  | leaf {loc : α} {item : Leaf} : item.IsKnown → form.admits item.token →
      Item form (.leaf loc item)
  | group {loc : α} {items : List (Node α)} : (∀ item ∈ items, Item form item) →
      (form.apart → NoneAdjacent Node.IsOrdinary items) → Item form (.text (.mk loc items))

/-- A phrase: items in a row. -/
inductive Words (form : Form) : Phrase α → Prop
  | mk {loc : α} {items : List (Node α)} : (∀ item ∈ items, Item form item) →
      (form.apart → NoneAdjacent Node.IsOrdinary items) → Words form (.mk loc items)

mutual

/-- A statement of a block. -/
inductive Statement (form : Form) : Node α → Prop
  | command {loc : α} {name : String} {words : Phrase α} :
      name ∈ statementWords → Words form words → Statement form (.command loc name words)
  | comment {loc : α} {words : Phrase α} : Words form words → Statement form (.comment loc words)
  | call {loc : α} {name : String} {args : Phrase α} :
      form.admits (.ordinary name) → Words form args → Statement form (.call loc name args)
  | conditional {loc : α} {branches : List (Branch α)} {hasElse : Bool}
      {elseBody : Option (Node α)} :
      branches ≠ [] → (∀ arm ∈ branches, Arm form arm) → (∀ body ∈ elseBody, Block form body) →
      (hasElse = false → elseBody = none) →
      Statement form (.conditional loc branches hasElse elseBody)
  | loop {loc : α} {keyword : String} {cond : Phrase α} {body : Option (Node α)} :
      keyword ∈ loopWords → Words form cond → (∀ block ∈ body, Block form block) →
      Statement form (.loop loc keyword cond body)
  | function {loc : α} {kind name : String} {params : Phrase α} {body : Option (Node α)} :
      kind ∈ functionWords → form.admits (.ordinary name) → Words form params →
      (∀ block ∈ body, Block form block) →
      Statement form (.function loc kind name params body)

/-- A block of statements. -/
inductive Block (form : Form) : Node α → Prop
  | mk {loc : α} {children : List (Node α)} : (∀ node ∈ children, Statement form node) →
      (form.grouped → children ≠ []) → Block form (.block loc children)

/-- An arm of a conditional. -/
inductive Arm (form : Form) : Branch α → Prop
  | mk {loc : α} {cond : Phrase α} {body : Option (Node α)} :
      Words form cond → (∀ block ∈ body, Block form block) → Arm form (.mk loc cond body)

end

/-- A section of an algorithmic environment: a precondition or a block. -/
inductive Section (form : Form) : Node α → Prop
  | precondition {loc : α} {name : String} {words : Phrase α} :
      name ∈ preconditionWords → Words form words → Section form (.command loc name words)
  | block {node : Node α} : Block form node → Section form node

/-- An algorithmic environment. -/
inductive Algorithmic (form : Form) : Node α → Prop
  | mk {loc : α} {children : List (Node α)} : (∀ node ∈ children, Section form node) →
      (form.grouped → NoneAdjacent Node.IsBlock children) →
      Algorithmic form (.algorithmic loc children)

/-- A part of an algorithm: a caption or an algorithmic environment. -/
inductive Part (form : Form) : Node α → Prop
  | caption {loc : α} {words : Phrase α} : Words form words → Part form (.caption loc words)
  | algorithmic {node : Node α} : Algorithmic form node → Part form node

/-- An environment of a document. -/
inductive Environment (form : Form) : Node α → Prop
  | algorithm {loc : α} {children : List (Node α)} : (∀ node ∈ children, Part form node) →
      Environment form (.algorithm loc children)
  | algorithmic {node : Node α} : Algorithmic form node → Environment form node

/-- A document. -/
inductive Document (form : Form) : Node α → Prop
  | mk {loc : α} {children : List (Node α)} : (∀ node ∈ children, Environment form node) →
      Document form (.root loc children)

/-! ## Asking less of a tree -/

section Mono

variable {form form' : Form} (hadmits : ∀ t, form.admits t → form'.admits t)
  (hapart : form'.apart → form.apart) (hgrouped : form'.grouped → form.grouped)
include hadmits hapart

theorem Item.mono {node : Node α} : Item form node → Item form' node
  | .leaf hknown h => .leaf hknown (hadmits _ h)
  | .group hitems h => .group (fun item hitem => (hitems item hitem).mono) (h ∘ hapart)

theorem Words.mono {words : Phrase α} (h : Words form words) : Words form' words := by
  obtain ⟨hitems, hnone⟩ := h
  exact .mk (fun item hitem => (hitems item hitem).mono hadmits hapart) (hnone ∘ hapart)

omit hadmits hapart

mutual

theorem Statement.mono (hadmits : ∀ t, form.admits t → form'.admits t)
    (hapart : form'.apart → form.apart) (hgrouped : form'.grouped → form.grouped) {node : Node α} :
    Statement form node → Statement form' node
  | .command hname hwords => .command hname (hwords.mono hadmits hapart)
  | .comment hwords => .comment (hwords.mono hadmits hapart)
  | .call hname hargs => .call (hadmits _ hname) (hargs.mono hadmits hapart)
  | .conditional hne harms helse hnone =>
    .conditional hne (fun arm harm => (harms arm harm).mono hadmits hapart hgrouped)
      (fun block hblock => (helse block hblock).mono hadmits hapart hgrouped) hnone
  | .loop hkeyword hcond hbody =>
    .loop hkeyword (hcond.mono hadmits hapart)
      fun block hblock => (hbody block hblock).mono hadmits hapart hgrouped
  | .function hkind hname hparams hbody =>
    .function hkind (hadmits _ hname) (hparams.mono hadmits hapart)
      fun block hblock => (hbody block hblock).mono hadmits hapart hgrouped

theorem Block.mono (hadmits : ∀ t, form.admits t → form'.admits t)
    (hapart : form'.apart → form.apart) (hgrouped : form'.grouped → form.grouped) {node : Node α} :
    Block form node → Block form' node
  | .mk hchildren hne =>
    .mk (fun node hnode => (hchildren node hnode).mono hadmits hapart hgrouped) (hne ∘ hgrouped)

theorem Arm.mono (hadmits : ∀ t, form.admits t → form'.admits t)
    (hapart : form'.apart → form.apart) (hgrouped : form'.grouped → form.grouped) {arm : Branch α} :
    Arm form arm → Arm form' arm
  | .mk hcond hbody =>
    .mk (hcond.mono hadmits hapart)
      fun block hblock => (hbody block hblock).mono hadmits hapart hgrouped

end

include hadmits hapart hgrouped

theorem Algorithmic.mono {node : Node α} (h : Algorithmic form node) : Algorithmic form' node := by
  obtain ⟨hchildren, hnone⟩ := h
  refine .mk (fun node hnode => ?_) (hnone ∘ hgrouped)
  cases hchildren node hnode with
  | precondition hname hwords => exact .precondition hname (hwords.mono hadmits hapart)
  | block hblock => exact .block (hblock.mono hadmits hapart hgrouped)

theorem Part.mono {node : Node α} (h : Part form node) : Part form' node := by
  cases h with
  | caption hwords => exact .caption (hwords.mono hadmits hapart)
  | algorithmic h => exact .algorithmic (h.mono hadmits hapart hgrouped)

theorem Environment.mono {node : Node α} (h : Environment form node) : Environment form' node := by
  cases h with
  | algorithm hparts =>
      exact .algorithm fun part hpart => (hparts part hpart).mono hadmits hapart hgrouped
  | algorithmic h => exact .algorithmic (h.mono hadmits hapart hgrouped)

theorem Document.mono {node : Node α} (h : Document form node) : Document form' node := by
  obtain ⟨henvironments⟩ := h
  exact .mk fun node hnode => (henvironments node hnode).mono hadmits hapart hgrouped

end Mono

/-- A document in any form is one of which nothing is asked. -/
theorem Document.any {form : Form} {node : Node α} (h : Document form node) :
    Document .any node := by
  have hadmits : ∀ t, form.admits t → Form.any.admits t := fun _ _ => trivial
  have hapart : Form.any.apart → form.apart := False.elim
  have hgrouped : Form.any.grouped → form.grouped := False.elim
  exact h.mono hadmits hapart hgrouped

/-- Some document is written with these tokens. -/
def Sentence (tokens : List Token) : Prop :=
  ∃ tree : Node Unit, Document .any tree ∧ tree.tokens = tokens

end AlgoBox
