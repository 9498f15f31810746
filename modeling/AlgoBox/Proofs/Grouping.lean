import AlgoBox.Proofs.Derivation

/-!
# Grouping

Every sentence has a derivation tree whose statements are grouped into maximal,
non-empty blocks (`Document.regroup`): empty blocks are left out, and a block that
follows a block is joined to it. Neither changes the tokens.
-/

namespace AlgoBox

open Grammar Token

variable {α : Type}

/-- What can be done to each node of a list without a change of its tokens can
be done to the list. -/
theorem exists_tokensAll {P : Node α → Prop} {nodes : List (Node α)}
    (h : ∀ node ∈ nodes, ∃ node', P node' ∧ node'.tokens = node.tokens) :
    ∃ nodes', (∀ node ∈ nodes', P node) ∧ Node.tokensAll nodes' = Node.tokensAll nodes := by
  induction nodes with
  | nil => exact ⟨[], by simp, rfl⟩
  | cons node rest ih =>
      obtain ⟨node', hP, htokens⟩ := h node List.mem_cons_self
      obtain ⟨rest', hrest, hrests⟩ := ih fun x hx => h x (List.mem_cons_of_mem _ hx)
      refine ⟨node' :: rest', List.forall_mem_cons.2 ⟨hP, hrest⟩, ?_⟩
      rw [Node.tokensAll, Node.tokensAll, htokens, hrests]

theorem exists_armTokens {P : Branch α → Prop} {arms : List (Branch α)} {keyword : String}
    (h : ∀ arm ∈ arms, ∃ arm', P arm' ∧ arm'.tokens = arm.tokens) :
    ∃ arms', (∀ arm ∈ arms', P arm) ∧ arms'.length = arms.length ∧
      Branch.tokensAll keyword arms' = Branch.tokensAll keyword arms := by
  induction arms generalizing keyword with
  | nil => exact ⟨[], by simp, rfl, rfl⟩
  | cons arm rest ih =>
      obtain ⟨arm', hP, htokens⟩ := h arm List.mem_cons_self
      obtain ⟨rest', hrest, hlength, hrests⟩ := ih fun x hx => h x (List.mem_cons_of_mem _ hx)
      refine ⟨arm' :: rest', List.forall_mem_cons.2 ⟨hP, hrest⟩, by simp [hlength], ?_⟩
      rw [Branch.tokensAll, Branch.tokensAll, htokens, hrests]

theorem Words.regroup {words : Phrase α} (h : Words .any words) : Words .grouping words := by
  have hadmits : ∀ t, Form.any.admits t → Form.grouping.admits t := fun _ => id
  exact h.mono hadmits id

/-- The statements of a body make a grouped body, none if there was none. -/
theorem exists_groupedBody {body : Option (Node α)}
    (h : ∀ block ∈ body, ∃ statements : List (Node α),
      (∀ node ∈ statements, Statement .grouping node) ∧
        Node.tokensAll statements = block.tokens) :
    ∃ body' : Option (Node α), (∀ block ∈ body', Block .grouping block) ∧
      (body = none → body' = none) ∧ Node.tokensBody body' = Node.tokensBody body := by
  cases body with
  | none => exact ⟨none, by simp, id, rfl⟩
  | some block =>
      obtain ⟨statements, hstatements, htokens⟩ := h block rfl
      cases statements with
      | nil => exact ⟨none, by simp, fun _ => rfl, htokens⟩
      | cons node rest =>
          refine ⟨some (.block block.loc (node :: rest)), ?_, nofun, ?_⟩
          · rintro _ ⟨⟩
            exact .mk hstatements fun _ => List.cons_ne_nil _ _
          · rw [Node.tokensBody, Node.tokensBody, Node.tokens, htokens]

mutual

theorem Statement.regroup {node : Node α} :
    Statement .any node → ∃ node' : Node α, Statement .grouping node' ∧ node'.tokens = node.tokens
  | .command hname hwords => ⟨_, .command hname hwords.regroup, rfl⟩
  | .comment hwords => ⟨_, .comment hwords.regroup, rfl⟩
  | .call hname hargs => ⟨_, .call hname hargs.regroup, rfl⟩
  | .conditional hne harms helse hnone => by
      obtain ⟨arms', harms', hlength, htokens⟩ :=
        exists_armTokens fun arm harm => (harms arm harm).regroup
      obtain ⟨body', hbody', hnone', htokens'⟩ :=
        exists_groupedBody fun block hblock => (helse block hblock).regroup
      have hne' : arms' ≠ [] := by
        rwa [← List.length_pos_iff, hlength, List.length_pos_iff]
      refine ⟨.conditional node.loc arms' _ body',
        .conditional hne' harms' hbody' fun h => hnone' (hnone h), ?_⟩
      rw [Node.tokens, Node.tokens, htokens, htokens']
  | .loop hkeyword hcond hbody => by
      obtain ⟨body', hbody', -, htokens⟩ :=
        exists_groupedBody fun block hblock => (hbody block hblock).regroup
      refine ⟨.loop node.loc _ _ body', .loop hkeyword hcond.regroup hbody', ?_⟩
      rw [Node.tokens, Node.tokens, htokens]
  | .function hkind hname hparams hbody => by
      obtain ⟨body', hbody', -, htokens⟩ :=
        exists_groupedBody fun block hblock => (hbody block hblock).regroup
      rename_i kind name params body
      refine ⟨.function node.loc kind name params body',
        .function hkind hname hparams.regroup hbody', ?_⟩
      rw [Node.tokens, Node.tokens, htokens]

theorem Block.regroup {node : Node α} :
    Block .any node → ∃ statements : List (Node α),
      (∀ node ∈ statements, Statement .grouping node) ∧
      Node.tokensAll statements = node.tokens
  | .mk hchildren _ => by
      rw [Node.tokens]
      exact exists_tokensAll fun node hnode => (hchildren node hnode).regroup

theorem Arm.regroup {arm : Branch α} :
    Arm .any arm → ∃ arm' : Branch α, Arm .grouping arm' ∧ arm'.tokens = arm.tokens
  | .mk hcond hbody => by
      obtain ⟨body', hbody', -, htokens⟩ :=
        exists_groupedBody fun block hblock => (hbody block hblock).regroup
      refine ⟨.mk arm.loc _ body', .mk hcond.regroup hbody', ?_⟩
      rw [Branch.tokens, Branch.tokens, htokens]

end

theorem noneAdjacent_cons {P : Node α → Prop} {node : Node α} {nodes : List (Node α)} (h : ¬P node)
    (hs : NoneAdjacent P nodes) : NoneAdjacent P (node :: nodes) :=
  List.isChain_cons.2 ⟨fun _ _ hboth => h hboth.1, hs⟩

/-- Statements in front of grouped sections: they join a block that follows. -/
theorem exists_joined {statements nodes : List (Node α)} (loc : α)
    (hstatements : ∀ node ∈ statements, Statement .grouping node)
    (hnodes : ∀ node ∈ nodes, Section .grouping node) (hapart : NoneAdjacent Node.IsBlock nodes) :
    ∃ nodes' : List (Node α), (∀ node ∈ nodes', Section .grouping node) ∧
      NoneAdjacent Node.IsBlock nodes' ∧
      Node.tokensAll nodes' = Node.tokensAll statements ++ Node.tokensAll nodes := by
  by_cases hempty : statements = []
  · subst hempty
    exact ⟨nodes, hnodes, hapart, rfl⟩
  · have hblock : Block .grouping (.block loc statements) := .mk hstatements fun _ => hempty
    cases nodes with
    | nil =>
        exact ⟨[.block loc statements], by simpa using Section.block hblock, .singleton _, rfl⟩
    | cons node rest =>
        rw [List.forall_mem_cons] at hnodes
        cases hnodes.1 with
        | precondition hname hwords =>
            refine ⟨.block loc statements :: .command _ _ _ :: rest, ?_, ?_, rfl⟩
            · exact List.forall_mem_cons.2 ⟨.block hblock, List.forall_mem_cons.2 hnodes⟩
            · exact List.isChain_cons_cons.2 ⟨fun hboth => hboth.2, hapart⟩
        | block hnext =>
            -- the statements move into the block that follows
            obtain ⟨hchildren, hne⟩ := hnext
            rename_i loc' children
            refine ⟨.block loc (statements ++ children) :: rest, ?_, ?_, ?_⟩
            · refine List.forall_mem_cons.2 ⟨.block (.mk ?_ fun _ => ?_), hnodes.2⟩
              · exact List.forall_mem_append.2 ⟨hstatements, hchildren⟩
              · exact List.append_ne_nil_of_left_ne_nil hempty _
            · obtain ⟨hhead, htail⟩ := List.isChain_cons.1 hapart
              exact List.isChain_cons.2 ⟨fun x hx hboth => hhead x hx ⟨trivial, hboth.2⟩, htail⟩
            · simp only [Node.tokensAll, Node.tokens, Node.tokensAll_append, List.append_assoc]

theorem exists_sections {nodes : List (Node α)} (h : ∀ node ∈ nodes, Section .any node) :
    ∃ nodes' : List (Node α), (∀ node ∈ nodes', Section .grouping node) ∧
      NoneAdjacent Node.IsBlock nodes' ∧ Node.tokensAll nodes' = Node.tokensAll nodes := by
  induction nodes with
  | nil => exact ⟨[], by simp, .nil, rfl⟩
  | cons node rest ih =>
      rw [List.forall_mem_cons] at h
      obtain ⟨rest', hrest, hapart, htokens⟩ := ih h.2
      cases h.1 with
      | precondition hname hwords =>
          rename_i loc name words
          have hcommand : Section .grouping (.command loc name words) :=
            .precondition hname hwords.regroup
          refine ⟨.command loc name words :: rest', List.forall_mem_cons.2 ⟨hcommand, hrest⟩,
            noneAdjacent_cons (fun h => h) hapart, ?_⟩
          rw [Node.tokensAll, Node.tokensAll, htokens]
      | block hblock =>
          obtain ⟨statements, hstatements, htokens'⟩ := hblock.regroup
          obtain ⟨nodes', hnodes', hapart', hjoined⟩ :=
            exists_joined node.loc hstatements hrest hapart
          refine ⟨nodes', hnodes', hapart', ?_⟩
          rw [hjoined, htokens, htokens', Node.tokensAll]

theorem Algorithmic.regroup {node : Node α} (h : Algorithmic .any node) :
    ∃ node' : Node α, Algorithmic .grouping node' ∧ node'.tokens = node.tokens := by
  obtain ⟨hchildren, -⟩ := h
  rename_i loc children
  obtain ⟨children', hchildren', hapart, htokens⟩ := exists_sections hchildren
  refine ⟨.algorithmic loc children', .mk hchildren' fun _ => hapart, ?_⟩
  rw [Node.tokens, Node.tokens, htokens]

theorem Part.regroup {node : Node α} (h : Part .any node) :
    ∃ node' : Node α, Part .grouping node' ∧ node'.tokens = node.tokens := by
  cases h with
  | caption hwords => exact ⟨_, .caption hwords.regroup, rfl⟩
  | algorithmic h =>
      obtain ⟨node', hnode', htokens⟩ := h.regroup
      exact ⟨node', .algorithmic hnode', htokens⟩

theorem Environment.regroup {node : Node α} (h : Environment .any node) :
    ∃ node' : Node α, Environment .grouping node' ∧ node'.tokens = node.tokens := by
  cases h with
  | algorithm hparts =>
      rename_i loc parts
      obtain ⟨parts', hparts', htokens⟩ :=
        exists_tokensAll fun part hpart => (hparts part hpart).regroup
      refine ⟨.algorithm loc parts', .algorithm hparts', ?_⟩
      rw [Node.tokens, Node.tokens, htokens]
  | algorithmic h =>
      obtain ⟨node', hnode', htokens⟩ := h.regroup
      exact ⟨node', .algorithmic hnode', htokens⟩

theorem Document.regroup {node : Node α} (h : Document .any node) :
    ∃ node' : Node α, Document .grouping node' ∧ node'.tokens = node.tokens := by
  obtain ⟨henvironments⟩ := h
  rename_i loc children
  obtain ⟨children', hchildren', htokens⟩ :=
    exists_tokensAll fun node hnode => (henvironments node hnode).regroup
  refine ⟨.root loc children', .mk hchildren', ?_⟩
  rw [Node.tokens, Node.tokens, htokens]

end AlgoBox
