import AlgoBox.Node.Basic

/-!
# Equality of trees

Trees are compared part by part (`Node.same`), so whether two trees are equal can be computed
wherever it can be computed for their annotations.
-/

namespace AlgoBox

variable {α : Type} [DecidableEq α]

mutual

/-- Whether two nodes are the same. -/
def Node.same : Node α → Node α → Bool
  | .bare loc, .bare loc' => loc = loc'
  | .root loc children, .root loc' children'
  | .algorithm loc children, .algorithm loc' children'
  | .algorithmic loc children, .algorithmic loc' children'
  | .block loc children, .block loc' children' => loc = loc' && Node.sameAll children children'
  | .text words, .text words' => words.same words'
  | .caption loc words, .caption loc' words'
  | .comment loc words, .comment loc' words' => loc = loc' && words.same words'
  | .command loc name words, .command loc' name' words'
  | .call loc name words, .call loc' name' words' =>
    loc = loc' && name = name' && words.same words'
  | .branch arm, .branch arm' => arm.same arm'
  | .conditional loc branches hasElse body, .conditional loc' branches' hasElse' body' =>
    loc = loc' && Branch.sameAll branches branches' && hasElse = hasElse' &&
      Node.sameBody body body'
  | .loop loc keyword cond body, .loop loc' keyword' cond' body' =>
    loc = loc' && keyword = keyword' && cond.same cond' && Node.sameBody body body'
  | .function loc kind name params body, .function loc' kind' name' params' body' =>
    loc = loc' && kind = kind' && name = name' && params.same params' && Node.sameBody body body'
  | .leaf loc item, .leaf loc' item' => loc = loc' && item = item'
  | _, _ => false

/-- Whether two phrases are the same. -/
def Phrase.same : Phrase α → Phrase α → Bool
  | .mk loc items, .mk loc' items' => loc = loc' && Node.sameAll items items'

/-- Whether two arms are the same. -/
def Branch.same : Branch α → Branch α → Bool
  | .mk loc cond body, .mk loc' cond' body' =>
    loc = loc' && cond.same cond' && Node.sameBody body body'

/-- Whether two lists of nodes are the same. -/
def Node.sameAll : List (Node α) → List (Node α) → Bool
  | [], [] => true
  | node :: rest, node' :: rest' => node.same node' && Node.sameAll rest rest'
  | _, _ => false

/-- Whether two lists of arms are the same. -/
def Branch.sameAll : List (Branch α) → List (Branch α) → Bool
  | [], [] => true
  | arm :: rest, arm' :: rest' => arm.same arm' && Branch.sameAll rest rest'
  | _, _ => false

/-- Whether two bodies are the same. -/
def Node.sameBody : Option (Node α) → Option (Node α) → Bool
  | none, none => true
  | some node, some node' => node.same node'
  | _, _ => false

end

mutual

theorem Node.same_iff : ∀ node other : Node α, node.same other = true ↔ node = other
  | .bare _, other => by cases other <;> simp [Node.same]
  | .root _ children, other => by cases other <;> simp [Node.same, Node.sameAll_iff children]
  | .algorithm _ children, other => by cases other <;> simp [Node.same, Node.sameAll_iff children]
  | .algorithmic _ children, other => by cases other <;> simp [Node.same, Node.sameAll_iff children]
  | .block _ children, other => by cases other <;> simp [Node.same, Node.sameAll_iff children]
  | .text words, other => by cases other <;> simp [Node.same, words.same_iff]
  | .caption _ words, other => by cases other <;> simp [Node.same, words.same_iff]
  | .comment _ words, other => by cases other <;> simp [Node.same, words.same_iff]
  | .command _ _ words, other => by cases other <;> simp [Node.same, words.same_iff, and_assoc]
  | .call _ _ words, other => by cases other <;> simp [Node.same, words.same_iff, and_assoc]
  | .branch arm, other => by cases other <;> simp [Node.same, arm.same_iff]
  | .conditional _ branches _ body, other => by
    cases other <;> simp [Node.same, Branch.sameAll_iff branches, Node.sameBody_iff body, and_assoc]
  | .loop _ _ cond body, other => by
    cases other <;> simp [Node.same, cond.same_iff, Node.sameBody_iff body, and_assoc]
  | .function _ _ _ params body, other => by
    cases other <;> simp [Node.same, params.same_iff, Node.sameBody_iff body, and_assoc]
  | .leaf _ _, other => by cases other <;> simp [Node.same]

theorem Phrase.same_iff : ∀ words other : Phrase α, words.same other = true ↔ words = other
  | .mk _ items, .mk _ _ => by simp [Phrase.same, Node.sameAll_iff items]

theorem Branch.same_iff : ∀ arm other : Branch α, arm.same other = true ↔ arm = other
  | .mk _ cond body, .mk _ _ _ => by
    simp [Branch.same, cond.same_iff, Node.sameBody_iff body, and_assoc]

theorem Node.sameAll_iff : ∀ nodes others : List (Node α),
    Node.sameAll nodes others = true ↔ nodes = others
  | [], others => by cases others <;> simp [Node.sameAll]
  | node :: rest, others => by
    cases others <;> simp [Node.sameAll, node.same_iff, Node.sameAll_iff rest]

theorem Branch.sameAll_iff : ∀ arms others : List (Branch α),
    Branch.sameAll arms others = true ↔ arms = others
  | [], others => by cases others <;> simp [Branch.sameAll]
  | arm :: rest, others => by
    cases others <;> simp [Branch.sameAll, arm.same_iff, Branch.sameAll_iff rest]

theorem Node.sameBody_iff : ∀ body other : Option (Node α),
    Node.sameBody body other = true ↔ body = other
  | none, other => by cases other <;> simp [Node.sameBody]
  | some node, other => by cases other <;> simp [Node.sameBody, node.same_iff]

end

instance : DecidableEq (Node α) := fun node other => decidable_of_iff _ (node.same_iff other)

end AlgoBox
