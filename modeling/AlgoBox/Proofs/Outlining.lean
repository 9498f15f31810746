import AlgoBox.Node.Outline
import AlgoBox.Proofs.Derivation

/-!
# Outlining

Every tree of the grammar has an outline (`Document.outline_succeeds`): only
nodes of no known type and arms on their own have none, and no production makes
one.
-/

namespace AlgoBox

variable {α β γ ε : Type} {form : Form}

/-- Something is computed without an error. -/
def Succeeds (x : Except ε β) : Prop := ∃ b, x = .ok b

theorem Succeeds.pure (b : β) : Succeeds (pure b : Except ε β) := ⟨b, rfl⟩

theorem Succeeds.bind {x : Except ε β} {f : β → Except ε γ} (hx : Succeeds x)
    (hf : ∀ b, Succeeds (f b)) : Succeeds (x >>= f) := by
  obtain ⟨b, rfl⟩ := hx
  exact hf b

theorem Succeeds.map {x : Except ε β} (f : β → γ) (hx : Succeeds x) : Succeeds (f <$> x) := by
  obtain ⟨b, rfl⟩ := hx
  exact ⟨f b, rfl⟩

theorem outlineAll_succeeds {nodes : List (Node α)} (h : ∀ node ∈ nodes, Succeeds node.outline) :
    Succeeds (Node.outlineAll nodes) := by
  induction nodes with
  | nil => exact .pure []
  | cons node rest ih =>
      obtain ⟨hnode, hrest⟩ := List.forall_mem_cons.1 h
      exact hnode.bind fun _ => (ih hrest).bind fun _ => .pure _

theorem outlineBody_succeeds (loc : α) {body : Option (Node α)}
    (h : ∀ block ∈ body, Succeeds block.outline) : Succeeds (Node.outlineBody loc body) := by
  cases body with
  | none => exact .pure _
  | some block => exact h block rfl

theorem Item.outline_succeeds {node : Node α} :
    Item form node → Succeeds node.outline
  | .leaf .. => .pure _
  | .group hitems _ =>
    (outlineAll_succeeds fun item hitem => (hitems item hitem).outline_succeeds).bind
      fun _ => .pure _

theorem Words.outline_succeeds {words : Phrase α} (h : Words form words) :
    Succeeds words.outline := by
  obtain ⟨hitems, -⟩ := h
  have hall := outlineAll_succeeds fun item hitem => (hitems item hitem).outline_succeeds
  exact hall.bind fun _ => .pure _

theorem outlineArms_succeeds (loc : α) {arms : List (Branch α)}
    (h : ∀ arm ∈ arms, ∀ rest, Succeeds (Branch.outlineAll loc rest) →
      Succeeds (Branch.outlineAll loc (arm :: rest))) : Succeeds (Branch.outlineAll loc arms) := by
  induction arms with
  | nil => exact .pure []
  | cons arm rest ih =>
      obtain ⟨harm, hrest⟩ := List.forall_mem_cons.1 h
      exact harm rest (ih hrest)

mutual

theorem Statement.outline_succeeds {node : Node α} :
    Statement form node → Succeeds node.outline
  | .command _ hwords => hwords.outline_succeeds.bind fun _ => .pure _
  | .comment hwords => hwords.outline_succeeds.bind fun _ => .pure _
  | .call _ hargs => hargs.outline_succeeds.bind fun _ => .pure _
  | .conditional _ harms helse _ => by
    have harms' (loc : α) := outlineArms_succeeds loc fun arm harm =>
      (harms arm harm).outline_succeeds
    have helse' (loc : α) := outlineBody_succeeds loc fun block hblock =>
      (helse block hblock).outline_succeeds
    refine (harms' _).bind fun _ => ?_
    dsimp only
    split
    · exact ((helse' _).map _).bind fun _ => .pure _
    · exact .pure _
  | .loop _ hcond hbody => by
    have hbody' (loc : α) := outlineBody_succeeds loc fun block hblock =>
      (hbody block hblock).outline_succeeds
    exact hcond.outline_succeeds.bind fun _ => (hbody' _).bind fun _ => .pure _
  | .function _ _ hparams hbody => by
    have hbody' (loc : α) := outlineBody_succeeds loc fun block hblock =>
      (hbody block hblock).outline_succeeds
    exact hparams.outline_succeeds.bind fun _ => (hbody' _).bind fun _ => .pure _

theorem Block.outline_succeeds {node : Node α} :
    Block form node → Succeeds node.outline
  | .mk hchildren _ => by
    have hall := outlineAll_succeeds fun node hnode => (hchildren node hnode).outline_succeeds
    exact hall.bind fun _ => .pure _

theorem Arm.outline_succeeds {loc : α} {arm : Branch α} : Arm form arm →
    ∀ rest, Succeeds (Branch.outlineAll loc rest) → Succeeds (Branch.outlineAll loc (arm :: rest))
  | .mk hcond hbody, _, hrest => by
    have hbody' (loc : α) := outlineBody_succeeds loc fun block hblock =>
      (hbody block hblock).outline_succeeds
    exact hcond.outline_succeeds.bind fun _ => (hbody' _).bind fun _ => hrest.bind fun _ => .pure _

end

theorem Section.outline_succeeds {node : Node α} (h : Section form node) :
    Succeeds node.outline := by
  cases h with
  | precondition _ hwords => exact hwords.outline_succeeds.bind fun _ => .pure _
  | block hblock => exact hblock.outline_succeeds

theorem Algorithmic.outline_succeeds {node : Node α} (h : Algorithmic form node) :
    Succeeds node.outline := by
  obtain ⟨hchildren, -⟩ := h
  have hall := outlineAll_succeeds fun child hchild => (hchildren child hchild).outline_succeeds
  exact hall.bind fun _ => .pure _

theorem Part.outline_succeeds {node : Node α} (h : Part form node) :
    Succeeds node.outline := by
  cases h with
  | caption hwords => exact hwords.outline_succeeds.bind fun _ => .pure _
  | algorithmic h => exact h.outline_succeeds

theorem Environment.outline_succeeds {node : Node α} (h : Environment form node) :
    Succeeds node.outline := by
  cases h with
  | algorithm hparts =>
      have hall := outlineAll_succeeds fun part hpart => (hparts part hpart).outline_succeeds
      exact hall.bind fun _ => .pure _
  | algorithmic h => exact h.outline_succeeds

theorem Document.outline_succeeds {tree : Node α} (h : Document form tree) :
    Succeeds tree.outline := by
  obtain ⟨henvironments⟩ := h
  have hall := outlineAll_succeeds fun node hnode => (henvironments node hnode).outline_succeeds
  exact hall.bind fun _ => .pure _

end AlgoBox
