import AlgoBox.Proofs.Derivation

/-!
# The tokens of trees

What holds of all leaves, braces and keywords holds of all tokens that a
derivation is written with. One induction over derivations (`Words.forall_tokens`,
`Statement.forall_tokens`) serves every such property.
-/

namespace AlgoBox

open Grammar Token

variable {α : Type} {form : Form} {P : Token → Prop}

/-- The command words inside environments, those of leaves left out. -/
def commandWords : List String :=
  ["IF", "ELIF", "ELSE", "ENDIF", "COMMENT", "CALL", "caption"] ++ preconditionWords
    ++ statementWords ++ loopWords ++ functionWords ++ loopWords.map ("END" ++ ·)
    ++ functionWords.map ("END" ++ ·)

/-- A property holds of all tokens inside environments. -/
structure Covers (form : Form) (P : Token → Prop) : Prop where
  leaf : ∀ item : Leaf, item.IsKnown → form.admits item.token → P item.token
  openBrace : P .openBrace
  closeBrace : P .closeBrace
  command : ∀ name ∈ commandWords, P (.word name)

/-- All tokens have a property. -/
def AllTokens (P : Token → Prop) (w : List Token) : Prop := ∀ t ∈ w, P t

@[simp] theorem allTokens_nil : AllTokens P [] := fun _ h => absurd h List.not_mem_nil

@[simp] theorem allTokens_cons {t : Token} {w : List Token} :
    AllTokens P (t :: w) ↔ P t ∧ AllTokens P w :=
  List.forall_mem_cons

@[simp] theorem allTokens_append {v w : List Token} :
    AllTokens P (v ++ w) ↔ AllTokens P v ∧ AllTokens P w :=
  List.forall_mem_append

theorem allTokens_tokensAll {nodes : List (Node α)}
    (h : ∀ node ∈ nodes, AllTokens P node.tokens) : AllTokens P (Node.tokensAll nodes) := by
  induction nodes with
  | nil => exact allTokens_nil
  | cons node rest ih =>
      rw [Node.tokensAll, allTokens_append]
      exact ⟨h node List.mem_cons_self, ih fun x hx => h x (List.mem_cons_of_mem _ hx)⟩

theorem allTokens_tokensBody {body : Option (Node α)}
    (h : ∀ node ∈ body, AllTokens P node.tokens) : AllTokens P (Node.tokensBody body) := by
  cases body with
  | none => exact allTokens_nil
  | some node => exact h node rfl

theorem allTokens_armTokens {arms : List (Branch α)} {keyword : String}
    (hkeyword : P (.word keyword))
    (helif : P (.word "ELIF")) (h : ∀ arm ∈ arms, AllTokens P arm.tokens) :
    AllTokens P (Branch.tokensAll keyword arms) := by
  induction arms generalizing keyword with
  | nil => exact allTokens_nil
  | cons arm rest ih =>
      rw [Branch.tokensAll, allTokens_cons, allTokens_append]
      exact ⟨hkeyword, h arm List.mem_cons_self,
        ih helif fun x hx => h x (List.mem_cons_of_mem _ hx)⟩

namespace Covers

variable (hP : Covers form P)
include hP

theorem braced {w : List Token} (h : AllTokens P w) : AllTokens P (Token.braced w) := by
  simp [Token.braced, h, hP.openBrace, hP.closeBrace]

theorem bracedName {name : String} (h : form.admits (.ordinary name)) :
    AllTokens P (Token.bracedName name) := by
  have hname : P (.ordinary name) := hP.leaf (.ordinary name) trivial h
  simp [Token.bracedName, hP.openBrace, hP.closeBrace, hname]

end Covers

theorem Item.forall_tokens (hP : Covers form P) {node : Node α} (h : Item form node) :
    AllTokens P node.tokens := by
  induction h with
  | leaf hknown hadmits =>
      rw [Node.tokens, allTokens_cons]
      exact ⟨hP.leaf _ hknown hadmits, allTokens_nil⟩
  | group _ _ ih =>
      rw [Node.tokens, Phrase.tokens]
      exact hP.braced (allTokens_tokensAll ih)

theorem Words.forall_tokens (hP : Covers form P) {words : Phrase α} (h : Words form words) :
    AllTokens P words.tokens := by
  obtain ⟨hitems, -⟩ := h
  rw [Phrase.tokens]
  exact allTokens_tokensAll fun item hitem => (hitems item hitem).forall_tokens hP

/-- The keyword that closes an environment of some keyword is a command. -/
theorem closing_mem_commandWords {keyword : String}
    (h : keyword ∈ loopWords ∨ keyword ∈ functionWords) :
    keyword ∈ commandWords ∧ "END" ++ keyword ∈ commandWords := by
  simp only [commandWords, List.mem_append, List.mem_map]
  rcases h with h | h
  · exact ⟨by simp [h], .inl (.inr ⟨keyword, h, rfl⟩)⟩
  · exact ⟨by simp [h], .inr ⟨keyword, h, rfl⟩⟩

mutual

theorem Statement.forall_tokens (hP : Covers form P) {node : Node α} :
    Statement form node → AllTokens P node.tokens
  | .command hname hwords => by
      rw [Node.tokens, allTokens_cons]
      exact ⟨hP.command _ (by simp [commandWords, hname]), hwords.forall_tokens hP⟩
  | .comment hwords => by
      rw [Node.tokens, allTokens_cons]
      exact ⟨hP.command _ (by decide), hP.braced (hwords.forall_tokens hP)⟩
  | .call hname hargs => by
      rw [Node.tokens, allTokens_cons, allTokens_append]
      exact ⟨hP.command _ (by decide), hP.bracedName hname, hP.braced (hargs.forall_tokens hP)⟩
  | .conditional _ harms helse _ => by
      have hend : P (.word "ENDIF") := hP.command _ (by decide)
      have harms' := allTokens_armTokens (hP.command "IF" (by decide)) (hP.command _ (by decide))
        fun arm harm => (harms arm harm).forall_tokens hP
      have helse' := allTokens_tokensBody fun block hblock => (helse block hblock).forall_tokens hP
      rw [Node.tokens]
      split <;> simp [harms', helse', hend, hP.command "ELSE" (by decide)]
  | .loop hkeyword hcond hbody => by
      obtain ⟨hopen, hclose⟩ := closing_mem_commandWords (.inl hkeyword)
      have hbody' := allTokens_tokensBody fun block hblock => (hbody block hblock).forall_tokens hP
      rw [Node.tokens]
      simp [hbody', hP.command _ hopen, hP.command _ hclose, hP.braced (hcond.forall_tokens hP)]
  | .function hkind hname hparams hbody => by
      obtain ⟨hopen, hclose⟩ := closing_mem_commandWords (.inr hkind)
      have hbody' := allTokens_tokensBody fun block hblock => (hbody block hblock).forall_tokens hP
      rw [Node.tokens]
      simp [hbody', hP.command _ hopen, hP.command _ hclose, hP.bracedName hname,
        hP.braced (hparams.forall_tokens hP)]

theorem Block.forall_tokens (hP : Covers form P) {node : Node α} :
    Block form node → AllTokens P node.tokens
  | .mk hchildren _ => by
      rw [Node.tokens]
      exact allTokens_tokensAll fun node hnode => (hchildren node hnode).forall_tokens hP

theorem Arm.forall_tokens (hP : Covers form P) {arm : Branch α} :
    Arm form arm → AllTokens P arm.tokens
  | .mk hcond hbody => by
      rw [Branch.tokens, allTokens_append]
      exact ⟨hP.braced (hcond.forall_tokens hP),
        allTokens_tokensBody fun block hblock => (hbody block hblock).forall_tokens hP⟩

end

theorem Section.forall_tokens (hP : Covers form P) {node : Node α} (h : Section form node) :
    AllTokens P node.tokens := by
  cases h with
  | precondition hname hwords =>
      rw [Node.tokens, allTokens_cons]
      exact ⟨hP.command _ (by simp [commandWords, hname]), hwords.forall_tokens hP⟩
  | block hblock => exact hblock.forall_tokens hP

/-- The words of a caption, its command included. -/
theorem Covers.caption (hP : Covers form P) {words : Phrase α} (h : Words form words) :
    AllTokens P (.word "caption" :: Token.braced words.tokens) := by
  rw [allTokens_cons]
  exact ⟨hP.command _ (by decide), hP.braced (h.forall_tokens hP)⟩

/-- A property of all tokens inside environments that holds of those of openings
and closings holds of all tokens of a document, the end of the source left out. -/
theorem Document.forall_tokens (hP : Covers form P)
    (hopening : ∀ name ∈ [algorithmName, algorithmicName],
      AllTokens P (opening name) ∧ AllTokens P (closing name))
    {node : Node α} (h : Document form node) :
    ∃ w, node.tokens = w ++ [.endOfSource] ∧ AllTokens P w := by
  have algorithmic : ∀ {node : Node α}, Algorithmic form node → AllTokens P node.tokens := by
    intro b h
    obtain ⟨hchildren, -⟩ := h
    obtain ⟨hbegin, hclose⟩ := hopening algorithmicName (by simp)
    rw [Node.tokens, allTokens_append, allTokens_append]
    exact ⟨hbegin, allTokens_tokensAll fun x hx => (hchildren x hx).forall_tokens hP, hclose⟩
  obtain ⟨henvironments⟩ := h
  refine ⟨_, rfl, allTokens_tokensAll fun environment henvironment => ?_⟩
  cases henvironments environment henvironment with
  | algorithmic h => exact algorithmic h
  | algorithm hparts =>
      obtain ⟨hbegin, hclose⟩ := hopening algorithmName (by simp)
      rw [Node.tokens, allTokens_append, allTokens_append]
      refine ⟨hbegin, allTokens_tokensAll fun part hpart => ?_, hclose⟩
      cases hparts part hpart with
      | caption hwords => exact hP.caption hwords
      | algorithmic h => exact algorithmic h

/-- The end of the source is the last token of a document and no other one. -/
theorem Document.endOfSource_last {node : Node α} (h : Document form node) :
    ∃ w, node.tokens = w ++ [.endOfSource] ∧ ∀ t ∈ w, t ≠ .endOfSource := by
  refine h.forall_tokens ⟨fun item _ _ => ?_, by simp, by simp, by simp⟩ fun name _ => ?_
  · cases item <;> exact nofun
  · simp [opening, closing, Token.bracedName]

end AlgoBox
