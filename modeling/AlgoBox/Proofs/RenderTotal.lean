import AlgoBox.Convert
import AlgoBox.Proofs.NormalForm
import AlgoBox.Proofs.Outlining

/-!
# Rendering is total on what is parsed

The parser and the renderer agree on the shape of a tree: what a source is read
as can be outlined and rendered, whatever the options, as long as the two that
are written into the output are texts (`renderTree_of_parse`).

`Completes` is the fact that a computation comes to its end on every page. It is
a class, so that whatever is put together from writing fragments completes by
following its definition. The walk of a tree completes case by case: a command
has a label, an escape has a markup, and a switch stands in a phrase only.
-/

namespace AlgoBox

open Html Page Grammar AlgoBox.Symbol

variable {α β γ : Type}

/-! ## Writing on a page -/

/-- A computation comes to its end, whatever page it starts on. -/
class Completes (p : RenderM β) : Prop where
  completes : ∀ page, ∃ b page', p page = .ok b page'

namespace Completes

instance pure (b : β) : Completes (pure b : RenderM β) where
  completes page := ⟨b, page, rfl⟩

instance get : Completes (get : RenderM Page) where
  completes page := ⟨page, page, rfl⟩

instance modify (f : Page → Page) : Completes (modify f : RenderM Unit) where
  completes page := ⟨(), f page, rfl⟩

instance bind (p : RenderM β) (f : β → RenderM γ) [hp : Completes p]
    [hf : ∀ b, Completes (f b)] : Completes (p >>= f) where
  completes page := by
    obtain ⟨b, page', hb⟩ := hp.completes page
    obtain ⟨c, page'', hc⟩ := (hf b).completes page'
    refine ⟨c, page'', ?_⟩
    show EStateM.bind p f page = _
    unfold EStateM.bind
    rw [hb]
    exact hc

instance ite (c : Prop) [Decidable c] (p q : RenderM β) [hp : Completes p] [hq : Completes q] :
    Completes (if c then p else q) := by
  split
  · exact hp
  · exact hq

/-- `bind` with its premises as arguments. -/
theorem before {p : RenderM β} {f : β → RenderM γ} (hp : Completes p)
    (hf : ∀ b, Completes (f b)) : Completes (p >>= f) := bind p f

end Completes

instance (fragment : Fragment) : Completes (emit fragment) := by
  unfold emit
  infer_instance

instance (text : String) : Completes (holdText text) := by
  unfold holdText
  infer_instance

instance : Completes releaseText := by
  unfold releaseText
  infer_instance

instance (fragment : Fragment) : Completes (write fragment) := by
  unfold write
  infer_instance

instance (word : String) : Completes (writeKeyword word) := by
  unfold writeKeyword
  infer_instance

instance : Completes closeLine := by
  unfold closeLine
  infer_instance

instance (div : Div) : Completes (openDiv div) := by
  unfold openDiv
  infer_instance

instance : Completes closeDiv := by
  unfold closeDiv
  infer_instance

instance (options : Options) : Completes (openBlock options) := by
  unfold openBlock
  infer_instance

instance : Completes closeBlock := by
  unfold closeBlock
  infer_instance

instance : Completes countCaption := by
  unfold countCaption
  infer_instance

instance : Completes resetLineCount := by
  unfold resetLineCount
  infer_instance

instance (count : Nat) : Completes (closeSpans count) := by
  induction count with
  | zero => exact .pure ()
  | succ count ih =>
      unfold closeSpans
      infer_instance

/-- The options that are written into the output are texts. -/
class Options.Textual (options : Options) : Prop where
  commentSymbol : ∃ s, options.commentSymbol = .text s
  lineNumberPunc : ∃ s, options.lineNumberPunc = .text s

theorem completes_escapeValue {value : Value} (h : ∃ s, value = .text s) :
    Completes (escapeValue value) := by
  obtain ⟨s, rfl⟩ := h
  unfold escapeValue
  dsimp only
  infer_instance

section Lines

variable {options : Options} [h : options.Textual]

instance : Completes (numberLine options) := by
  have := completes_escapeValue h.lineNumberPunc
  unfold numberLine
  infer_instance

instance : Completes (openLine options) := by
  unfold openLine
  dsimp only
  exact .before inferInstance fun _ => .before inferInstance fun _ => inferInstance

instance : Completes (joinLine options) := by
  unfold joinLine
  infer_instance

instance {setup : Setup} [setup.options.Textual] (text : RenderM Unit) [Completes text] :
    Completes (captionLine setup text) := by
  unfold captionLine
  infer_instance

end Lines

/-! ## Labels and escapes -/

theorem commandLabel?_of_mem {name : String} (h : name ∈ statementWords ++ preconditionWords) :
    ∃ label, commandLabel? name = some label := by
  have hall : ∀ name ∈ statementWords ++ preconditionWords, (commandLabel? name).isSome := by decide
  exact Option.isSome_iff_exists.1 (hall name h)

theorem escapeMarkup?_of_valid {escape : String} (h : (Token.special escape).Valid) :
    ∃ markup, escapeMarkup? escape = some markup := by
  obtain ⟨c, hc, hescape⟩ := h
  obtain rfl : escape = String.ofList ['\\', c] := by rw [← hescape, String.ofList_toList]
  have hsome := of_isReserved (p := fun c => (escapeMarkup? (String.ofList ['\\', c])).isSome)
    (by decide) hc
  exact Option.isSome_iff_exists.1 hsome

/-! ## Phrases -/

variable (setup : Setup)

theorem Leaf.completes {leaf : Leaf} (hvalid : leaf.token.Valid) (hswitch : leaf.switch? = none) :
    Completes (leaf.render setup) := by
  cases leaf with
  | ordinary =>
      unfold Leaf.render
      infer_instance
  | math =>
      unfold Leaf.render
      infer_instance
  | bool =>
      unfold Leaf.render
      infer_instance
  | special escape =>
      obtain ⟨markup, hmarkup⟩ := escapeMarkup?_of_valid hvalid
      unfold Leaf.render
      dsimp only
      rw [hmarkup]
      exact inferInstanceAs (Completes (holdText markup))
  | size => cases hswitch
  | font => cases hswitch

section Items

variable {setup} {items rest : List (Node α)}

/-- A leaf is either a switch, which opens a stretch, or is written by itself. -/
theorem renderItems_leaf {loc : α} {item : Leaf} (hvalid : item.token.Valid)
    (hrest : Completes (Node.renderItems setup rest)) :
    Completes (Node.renderItems setup (.leaf loc item :: rest)) := by
  rw [Node.renderItems]
  cases hswitch : item.switch? with
  | none =>
      have := Leaf.completes setup hvalid hswitch
      dsimp only
      infer_instance
  | some span =>
      dsimp only
      infer_instance

theorem renderItems_text {words : Phrase α} (hwords : Completes (words.render setup))
    (hrest : Completes (Node.renderItems setup rest)) :
    Completes (Node.renderItems setup (.text words :: rest)) :=
  hwords.before fun _ => hrest

theorem renderItems_completes
    (h : ∀ item ∈ items, ∀ rest, Completes (Node.renderItems setup rest) →
      Completes (Node.renderItems setup (item :: rest))) :
    Completes (Node.renderItems setup items) := by
  induction items with
  | nil => exact .pure 0
  | cons item rest ih =>
      obtain ⟨hitem, hrest⟩ := List.forall_mem_cons.1 h
      exact hitem rest (ih hrest)

theorem phrase_completes {loc : α} (h : Completes (Node.renderItems setup items)) :
    Completes ((Phrase.mk loc items).render setup) := by
  unfold Phrase.render
  infer_instance

end Items

theorem Item.completes {node : Node α} : Item .normal node →
    ∀ rest, Completes (Node.renderItems setup rest) →
      Completes (Node.renderItems setup (node :: rest))
  | .leaf _ hvalid, _, hrest => renderItems_leaf hvalid hrest
  | .group hitems _, _, hrest => by
    have hwords := renderItems_completes fun item hitem => (hitems item hitem).completes
    exact renderItems_text (phrase_completes hwords) hrest

theorem Words.completes {words : Phrase α} (h : Words .normal words) :
    Completes (words.render setup) := by
  obtain ⟨hitems, -⟩ := h
  have hall := renderItems_completes fun item hitem => (hitems item hitem).completes setup
  exact phrase_completes hall

/-! ## Statements -/

section Lists

variable {setup}

theorem renderAll_completes {nodes : List (Node α)}
    (h : ∀ node ∈ nodes, Completes (node.render setup)) :
    Completes (Node.renderAll setup nodes) := by
  induction nodes with
  | nil => exact .pure ()
  | cons node rest ih =>
      obtain ⟨hnode, hrest⟩ := List.forall_mem_cons.1 h
      exact hnode.before fun _ => ih hrest

theorem renderBody_completes {body : Option (Node α)}
    (h : ∀ block ∈ body, Completes (block.render setup)) :
    Completes (Node.renderBody setup body) := by
  cases body with
  | none => exact .pure ()
  | some block => exact h block rfl

theorem renderArms_completes {arms : List (Branch α)}
    (h : ∀ arm ∈ arms, ∀ rest, Completes (Branch.renderAll setup rest) →
      Completes (Branch.renderAll setup (arm :: rest))) :
    Completes (Branch.renderAll setup arms) := by
  induction arms with
  | nil => exact .pure ()
  | cons arm rest ih =>
      obtain ⟨harm, hrest⟩ := List.forall_mem_cons.1 h
      exact harm rest (ih hrest)

end Lists

mutual

theorem Statement.completes [h : setup.options.Textual] {node : Node α} :
    Statement .normal node → Completes (node.render setup)
  | .command hname hwords => by
    obtain ⟨label, hlabel⟩ := commandLabel?_of_mem (List.mem_append_left _ hname)
    have := hwords.completes setup
    rw [Node.render, hlabel]
    dsimp only
    infer_instance
  | .comment hwords => by
    have := completes_escapeValue h.commentSymbol
    have := hwords.completes setup
    rw [Node.render]
    infer_instance
  | .call _ hargs => by
    have := hargs.completes setup
    rw [Node.render]
    infer_instance
  | .conditional _ harms helse _ => by
    have := renderArms_completes fun arm harm => (harms arm harm).completes
    have := renderBody_completes fun block hblock => (helse block hblock).completes
    rw [Node.render]
    dsimp only
    infer_instance
  | .loop _ hcond hbody => by
    have := hcond.completes setup
    have := renderBody_completes fun block hblock => (hbody block hblock).completes
    rw [Node.render]
    exact .before inferInstance fun _ => .before inferInstance fun _ => inferInstance
  | .function _ _ hparams hbody => by
    have := hparams.completes setup
    have := renderBody_completes fun block hblock => (hbody block hblock).completes
    rw [Node.render]
    refine .before inferInstance fun _ => .before inferInstance fun _ => ?_
    exact .before inferInstance fun _ => .before inferInstance fun _ => inferInstance

theorem Block.completes [setup.options.Textual] {node : Node α} :
    Block .normal node → Completes (node.render setup)
  | .mk hchildren _ => by
    have := renderAll_completes fun node hnode => (hchildren node hnode).completes
    rw [Node.render]
    infer_instance

theorem Arm.completes [setup.options.Textual] {arm : Branch α} : Arm .normal arm →
    ∀ rest, Completes (Branch.renderAll setup rest) →
      Completes (Branch.renderAll setup (arm :: rest))
  | .mk hcond hbody, rest, hrest => by
    have := hcond.completes setup
    have := renderBody_completes fun block hblock => (hbody block hblock).completes
    rw [Branch.renderAll]
    infer_instance

end

/-! ## Environments -/

theorem Section.completes [setup.options.Textual] {node : Node α} (hnode : Section .normal node) :
    Completes (node.render setup) := by
  cases hnode with
  | precondition hname hwords =>
      obtain ⟨label, hlabel⟩ := commandLabel?_of_mem (List.mem_append_right _ hname)
      have := hwords.completes setup
      rw [Node.render, hlabel]
      dsimp only
      infer_instance
  | block hblock => exact hblock.completes setup

theorem Algorithmic.completes [setup.options.Textual] {node : Node α}
    (hnode : Algorithmic .normal node) : Completes (node.render setup) := by
  obtain ⟨hchildren, -⟩ := hnode
  have := renderAll_completes fun child hchild => (hchildren child hchild).completes setup
  rw [Node.render]
  dsimp only
  infer_instance

theorem Part.renderLastCaption_completes [setup.options.Textual] {parts : List (Node α)}
    (hparts : ∀ part ∈ parts, Part .normal part) :
    Completes (Node.renderLastCaption setup parts) := by
  induction parts with
  | nil => exact .pure ()
  | cons part rest ih =>
      obtain ⟨hpart, hrest⟩ := List.forall_mem_cons.1 hparts
      have := ih hrest
      cases hpart with
      | caption hwords =>
          have := hwords.completes setup
          rw [Node.renderLastCaption]
          infer_instance
      | algorithmic halgorithmic =>
          -- only to see that the part is no caption
          obtain ⟨_, _⟩ := halgorithmic
          exact this

theorem Part.renderParts_completes [setup.options.Textual] {parts : List (Node α)}
    (hparts : ∀ part ∈ parts, Part .normal part) : Completes (Node.renderParts setup parts) := by
  induction parts with
  | nil => exact .pure ()
  | cons part rest ih =>
      obtain ⟨hpart, hrest⟩ := List.forall_mem_cons.1 hparts
      cases hpart with
      | caption => exact ih hrest
      | algorithmic halgorithmic =>
          have hpart := halgorithmic.completes setup
          obtain ⟨_, _⟩ := halgorithmic
          exact hpart.before fun _ => ih hrest

theorem Environment.completes [setup.options.Textual] {node : Node α}
    (hnode : Environment .normal node) : Completes (node.render setup) := by
  cases hnode with
  | algorithm hparts =>
      have := Part.renderLastCaption_completes setup hparts
      have := Part.renderParts_completes setup hparts
      rw [Node.render]
      dsimp only
      infer_instance
  | algorithmic h => exact h.completes setup

theorem Node.Normal.completes [setup.options.Textual] {tree : Node α} (h : tree.Normal) :
    Completes (tree.render setup) := by
  obtain ⟨henvironments⟩ := h
  have := renderAll_completes fun node hnode => (henvironments node hnode).completes setup
  rw [Node.render]
  infer_instance

/-! ## Sources -/

theorem Node.Normal.exists_rendering [setup.options.Textual] {tree : Node α} (h : tree.Normal) :
    Succeeds (tree.rendering setup).markup := by
  obtain ⟨_, page, hpage⟩ := (h.completes setup).completes {}
  unfold Node.rendering
  rw [hpage]
  exact ⟨_, rfl⟩

theorem Node.Normal.fault_eq_none [setup.options.Textual] {tree : Node α} (h : tree.Normal) :
    (tree.rendering setup).fault = none := by
  obtain ⟨html, hhtml⟩ := h.exists_rendering setup
  unfold Rendering.markup at hhtml
  cases hfault : (tree.rendering setup).fault with
  | none => rfl
  | some fault =>
      rw [hfault] at hhtml
      cases hhtml

/-- What is read has an outline, so turning it into markup comes down to its rendering,
whatever is logged. -/
theorem Node.Normal.renderTree_eq {tree : Node α} (h : tree.Normal) (level : Log.Level)
    (options : Options) (typesetter : Typesetter) :
    (renderTree level options typesetter tree).result =
      (tree.rendering ⟨options, typesetter.getD delimited⟩).markup.mapError .render ∧
    (renderTree level options typesetter tree).formulas =
      if typesetter.isSome then (tree.rendering ⟨options, typesetter.getD delimited⟩).formulas
      else [] := by
  obtain ⟨outline, houtline⟩ := Document.outline_succeeds h
  unfold renderTree
  dsimp only
  rw [houtline]
  split
  · exact ⟨rfl, rfl⟩
  · exact ⟨rfl, rfl⟩

/-- What a source is read as is rendered: at every level of logging, with every
typesetter, and with all options whose texts are texts. -/
theorem renderTree_of_parse {source : String} {tree : Node Source.Location} {options : Options}
    (hparse : parse source = .ok tree) (hsymbol : ∃ s, options.commentSymbol = .text s)
    (hpunc : ∃ s, options.lineNumberPunc = .text s) (level : Log.Level) (typesetter : Typesetter) :
    ∃ html, (renderTree level options typesetter tree).result = .ok html := by
  have htree := normal_of_parse hparse
  have : options.Textual := ⟨hsymbol, hpunc⟩
  obtain ⟨html, hhtml⟩ := htree.exists_rendering ⟨options, typesetter.getD delimited⟩
  obtain ⟨outline, houtline⟩ := Document.outline_succeeds htree
  refine ⟨html, ?_⟩
  unfold renderTree
  dsimp only
  rw [hhtml, houtline]
  split
  · rfl
  · rfl

theorem renders_numbered_loop :
    ∃ tree,
      parse "\\begin{algorithmic}\\FOR{x}\\STATE \\bf a\\$ \\ENDFOR\\end{algorithmic}" = .ok tree ∧
      ∃ html, (renderTree .debug { Options.default with lineNumber := .bool true } none tree).result
        = .ok html := by
  obtain ⟨tree, htree⟩ : ∃ tree,
      parse "\\begin{algorithmic}\\FOR{x}\\STATE \\bf a\\$ \\ENDFOR\\end{algorithmic}" = .ok tree :=
    exists_parse_iff.2 (by decide +kernel)
  exact ⟨tree, htree, renderTree_of_parse htree ⟨_, rfl⟩ ⟨_, rfl⟩ .debug none⟩

end AlgoBox
