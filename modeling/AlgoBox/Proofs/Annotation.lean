import AlgoBox.Proofs.Derivation
import AlgoBox.Proofs.Erasure

/-!
# Annotations

The shape of a tree does not depend on what its nodes carry: a tree is a
document as soon as it is one with other annotations (`Document.of_map`). So
what is known of trees without locations holds of the trees that a parse gives.
-/

namespace AlgoBox

variable {α β : Type} {form : Form}

theorem Node.isOrdinary_map (f : α → β) (node : Node α) :
    (node.map f).IsOrdinary ↔ node.IsOrdinary := by
  cases node with
  | leaf loc item => cases item <;> exact Iff.rfl
  | _ => exact Iff.rfl

theorem Node.isBlock_map (f : α → β) (node : Node α) : (node.map f).IsBlock ↔ node.IsBlock := by
  cases node <;> exact Iff.rfl

theorem noneAdjacent_mapAll {f : α → β} {P : Node α → Prop} {Q : Node β → Prop}
    (hP : ∀ node, Q (node.map f) ↔ P node) {nodes : List (Node α)} :
    NoneAdjacent Q (Node.mapAll f nodes) → NoneAdjacent P nodes := by
  unfold NoneAdjacent
  rw [Node.mapAll_eq, List.isChain_map]
  simp only [hP]
  exact id

/-! ## Phrases -/

mutual

theorem Item.of_map (f : α → β) : ∀ node : Node α, Item form (node.map f) → Item form node
  | .leaf .., .leaf hknown hadmits => .leaf hknown hadmits
  | .text (.mk _ items), .group hitems hnone =>
    .group (Item.all_of_map f items hitems)
      fun hapart => noneAdjacent_mapAll (Node.isOrdinary_map f) (hnone hapart)

theorem Item.all_of_map (f : α → β) : ∀ nodes : List (Node α),
    (∀ node ∈ Node.mapAll f nodes, Item form node) → ∀ node ∈ nodes, Item form node
  | [], _ => List.forall_mem_nil _
  | node :: rest, h => by
    obtain ⟨hnode, hrest⟩ := List.forall_mem_cons.1 h
    exact List.forall_mem_cons.2 ⟨Item.of_map f node hnode, Item.all_of_map f rest hrest⟩

end

theorem Words.of_map (f : α → β) {words : Phrase α} (h : Words form (words.map f)) :
    Words form words := by
  obtain ⟨loc, items⟩ := words
  obtain ⟨hitems, hnone⟩ := h
  exact .mk (Item.all_of_map f items hitems)
    fun hapart => noneAdjacent_mapAll (Node.isOrdinary_map f) (hnone hapart)

/-! ## Statements -/

mutual

theorem Statement.of_map (f : α → β) :
    ∀ node : Node α, Statement form (node.map f) → Statement form node
  | .command .., .command hname hwords => .command hname (hwords.of_map f)
  | .comment .., .comment hwords => .comment (hwords.of_map f)
  | .call .., .call hname hargs => .call hname (hargs.of_map f)
  | .conditional _ branches hasElse elseBody, .conditional hne harms helse hnone => by
    refine .conditional ?_ (Arm.all_of_map f branches harms) (Block.body_of_map f elseBody helse) ?_
    · intro heq
      subst heq
      exact hne rfl
    · intro hfalse
      rw [Node.mapBody_eq] at hnone
      exact Option.map_eq_none_iff.1 (hnone hfalse)
  | .loop _ _ _ body, .loop hkeyword hcond hbody =>
    .loop hkeyword (hcond.of_map f) (Block.body_of_map f body hbody)
  | .function _ _ _ _ body, .function hkind hname hparams hbody =>
    .function hkind hname (hparams.of_map f) (Block.body_of_map f body hbody)

theorem Statement.all_of_map (f : α → β) : ∀ nodes : List (Node α),
    (∀ node ∈ Node.mapAll f nodes, Statement form node) → ∀ node ∈ nodes, Statement form node
  | [], _ => List.forall_mem_nil _
  | node :: rest, h => by
    obtain ⟨hnode, hrest⟩ := List.forall_mem_cons.1 h
    exact List.forall_mem_cons.2 ⟨Statement.of_map f node hnode, Statement.all_of_map f rest hrest⟩

theorem Block.of_map (f : α → β) : ∀ node : Node α, Block form (node.map f) → Block form node
  | .block _ children, .mk hchildren hne => by
    refine .mk (Statement.all_of_map f children hchildren) fun hgrouped => ?_
    intro heq
    subst heq
    exact hne hgrouped rfl

theorem Block.body_of_map (f : α → β) : ∀ body : Option (Node α),
    (∀ block ∈ Node.mapBody f body, Block form block) → ∀ block ∈ body, Block form block
  | none, _ => nofun
  | some node, h => by
    rintro _ ⟨⟩
    exact Block.of_map f node (h _ rfl)

theorem Arm.of_map (f : α → β) : ∀ arm : Branch α, Arm form (arm.map f) → Arm form arm
  | .mk _ _ body, .mk hcond hbody => .mk (hcond.of_map f) (Block.body_of_map f body hbody)

theorem Arm.all_of_map (f : α → β) : ∀ arms : List (Branch α),
    (∀ arm ∈ Branch.mapAll f arms, Arm form arm) → ∀ arm ∈ arms, Arm form arm
  | [], _ => List.forall_mem_nil _
  | arm :: rest, h => by
    obtain ⟨harm, hrest⟩ := List.forall_mem_cons.1 h
    exact List.forall_mem_cons.2 ⟨Arm.of_map f arm harm, Arm.all_of_map f rest hrest⟩

end

/-! ## Environments -/

theorem Section.of_map (f : α → β) (node : Node α) (h : Section form (node.map f)) :
    Section form node := by
  cases node with
  | command =>
      cases h with
      | precondition hname hwords => exact .precondition hname (hwords.of_map f)
      | block h => exact .block (Block.of_map f _ h)
  | _ =>
      cases h with
      | block h => exact .block (Block.of_map f _ h)

theorem forall_of_mapAll {f : α → β} {P : Node α → Prop} {Q : Node β → Prop}
    (hP : ∀ node, Q (node.map f) → P node) {nodes : List (Node α)}
    (h : ∀ node ∈ Node.mapAll f nodes, Q node) : ∀ node ∈ nodes, P node := by
  intro node hnode
  rw [Node.mapAll_eq] at h
  exact hP node (h _ (List.mem_map_of_mem hnode))

theorem Algorithmic.of_map (f : α → β) :
    ∀ node : Node α, Algorithmic form (node.map f) → Algorithmic form node
  | .algorithmic .., .mk hchildren hnone =>
    .mk (forall_of_mapAll (Section.of_map f) hchildren)
      fun hgrouped => noneAdjacent_mapAll (Node.isBlock_map f) (hnone hgrouped)

theorem Part.of_map (f : α → β) (node : Node α) (h : Part form (node.map f)) :
    Part form node := by
  cases node with
  | caption =>
      cases h with
      | caption hwords => exact .caption (hwords.of_map f)
      | algorithmic h => exact .algorithmic (Algorithmic.of_map f _ h)
  | _ =>
      cases h with
      | algorithmic h => exact .algorithmic (Algorithmic.of_map f _ h)

theorem Environment.of_map (f : α → β) (node : Node α) (h : Environment form (node.map f)) :
    Environment form node := by
  cases node with
  | algorithm =>
      cases h with
      | algorithm hparts => exact .algorithm (forall_of_mapAll (Part.of_map f) hparts)
      | algorithmic h => exact .algorithmic (Algorithmic.of_map f _ h)
  | _ =>
      cases h with
      | algorithmic h => exact .algorithmic (Algorithmic.of_map f _ h)

/-- A tree is a document if it is one without its annotations. -/
theorem Document.of_map (f : α → β) :
    ∀ node : Node α, Document form (node.map f) → Document form node
  | .root .., .mk henvironments => .mk (forall_of_mapAll (Environment.of_map f) henvironments)

end AlgoBox
