import AlgoBox.Proofs.JsonRoundTrip
import AlgoBox.Proofs.LayoutIndependence

/-!
# Trees from their outlines

An outline lists the arms of a conditional as conditions and bodies in turn, and
shows an empty body as a block without children. A tree that a source is read as
can still be restored from it, up to its annotations (`Document.restores`): its
blocks hold something, and a conditional without a last body has none. So JSON
without locations is a key for what comes of a source.
-/

namespace AlgoBox

open Html Source

variable {α β γ ε : Type} {form : Form}

/-! ## Restoring a tree -/

namespace Outline

/-- The body that a block stands for; an empty block stands for none. -/
def bodyOf : Node Unit → Option (Node Unit)
  | .block _ [] => none
  | node => some node

/-- The arms of conditions and bodies in turn. -/
def armsOf : List (Node Unit) → List (Branch Unit)
  | .text cond :: body :: rest => .mk () cond (bodyOf body) :: armsOf rest
  | _ => []

/-- The node that has a type, a value and children in its outline. -/
def assemble (type : String) (value : Outline.Value) (children : List (Node Unit)) : Node Unit :=
  match type, value, children with
  | "root", _, children => .root () children
  | "algorithm", _, children => .algorithm () children
  | "algorithmic", _, children => .algorithmic () children
  | "block", _, children => .block () children
  | "text", _, items => .text (.mk () items)
  | "caption", _, [.text words] => .caption () words
  | "comment", _, [.text words] => .comment () words
  | "command", .word name, [.text words] => .command () name words
  | "call", .word name, [.text args] => .call () name args
  | "loop", .word keyword, [.text cond, body] => .loop () keyword cond (bodyOf body)
  | "function", .routine kind name, [.text params, body] =>
    .function () kind name params (bodyOf body)
  | "if", .choice _ hasElse, children =>
    .conditional () (armsOf children) hasElse
      (if hasElse then children.getLast?.bind bodyOf else none)
  | "ordinary", .word s, _ => .leaf () (.ordinary s)
  | "math", .word s, _ => .leaf () (.math s)
  | "special", .word s, _ => .leaf () (.special s)
  | "bool", .word s, _ => .leaf () (.bool s)
  | "size", .word s, _ => .leaf () (.size s)
  | "font", .word s, _ => .leaf () (.font s)
  | _, _, _ => .bare ()

theorem assemble_if (elifs : Int) (hasElse : Bool) (children : List (Node Unit)) :
    assemble "if" (.choice elifs hasElse) children =
      .conditional () (armsOf children) hasElse
        (if hasElse then children.getLast?.bind bodyOf else none) := rfl

mutual

/-- The tree of an outline, without annotations. -/
def restore : Outline α → Node Unit
  | .mk _ type value children => assemble type value (restoreAll children)

/-- The trees of some outlines. -/
def restoreAll : List (Outline α) → List (Node Unit)
  | [] => []
  | outline :: rest => outline.restore :: restoreAll rest

end

theorem restoreAll_append (l m : List (Outline α)) :
    restoreAll (l ++ m) = restoreAll l ++ restoreAll m := by
  induction l with
  | nil => rfl
  | cons outline rest ih => simp only [List.cons_append, restoreAll, ih]

end Outline

open Outline

/-- Whatever is computed without an error has a property. -/
def Gives (x : Except ε β) (P : β → Prop) : Prop := ∀ b, x = .ok b → P b

namespace Gives

variable {x : Except ε β} {f : β → Except ε γ} {P : β → Prop} {Q : γ → Prop}

theorem pure {b : β} (h : P b) : Gives (pure b : Except ε β) P := by
  intro b' hb
  cases hb
  exact h

theorem bind (hx : Gives x P) (hf : ∀ b, P b → Gives (f b) Q) : Gives (x >>= f) Q := by
  intro c hc
  cases x with
  | error e => cases hc
  | ok b => exact hf b (hx b rfl) c hc

theorem map {g : β → γ} (hx : Gives x P) (hg : ∀ b, P b → Q (g b)) : Gives (g <$> x) Q :=
  hx.bind fun b hb => pure (hg b hb)

end Gives

/-- A tree is restored from its outline, if it has one. -/
def Node.Restores (node : Node α) : Prop := Gives node.outline fun o => o.restore = node.erase

theorem outlineAll_restores {nodes : List (Node α)} (h : ∀ node ∈ nodes, node.Restores) :
    Gives (Node.outlineAll nodes) fun os => restoreAll os = nodes.map Node.erase := by
  induction nodes with
  | nil => exact .pure rfl
  | cons node rest ih =>
      obtain ⟨hnode, hrest⟩ := List.forall_mem_cons.1 h
      refine hnode.bind fun o ho => (ih hrest).bind fun os hos => .pure ?_
      rw [restoreAll, ho, hos, List.map_cons]

/-- A node that holds trees and nothing else. -/
theorem restores_children {nodes : List (Node α)} (h : ∀ node ∈ nodes, node.Restores) {loc : α}
    {type : String} {node : Node Unit} (hnode : assemble type .none (nodes.map Node.erase) = node) :
    Gives (Node.outlineAll nodes >>= fun os => pure (Outline.mk loc type .none os))
      fun o => o.restore = node := by
  refine (outlineAll_restores h).bind fun os hos => .pure ?_
  rw [restore, hos, hnode]

/-! ## Phrases -/

theorem Leaf.restores (loc : α) (item : Leaf) : (Node.leaf loc item).Restores := by
  refine .pure ?_
  cases item <;> rfl

theorem phrase_restores {loc : α} {items : List (Node α)} (h : ∀ item ∈ items, item.Restores) :
    Gives (Phrase.mk loc items).outline fun o => o.restore = .text (Phrase.mk loc items).erase := by
  refine restores_children h ?_
  rw [Phrase.erase_mk]
  rfl

theorem Item.restores {node : Node α} : Item form node → node.Restores
  | .leaf .. => Leaf.restores _ _
  | .group hitems _ => phrase_restores fun item hitem => (hitems item hitem).restores

theorem Words.restores {words : Phrase α} (h : Words form words) :
    Gives words.outline fun o => o.restore = .text words.erase := by
  obtain ⟨hitems, -⟩ := h
  exact phrase_restores fun item hitem => (hitems item hitem).restores

/-- A node that holds a phrase and nothing else. -/
theorem Words.restores_single {words : Phrase α} (h : Words form words) {loc : α}
    {type : String} {value : Outline.Value} {node : Node Unit}
    (hnode : assemble type value [.text words.erase] = node) :
    Gives (words.outline >>= fun o => pure (Outline.mk loc type value [o]))
      fun o => o.restore = node := by
  refine h.restores.bind fun o ho => .pure ?_
  rw [restore, restoreAll, restoreAll, ho, hnode]

/-! ## Statements -/

/-- A block that holds something is a body. -/
theorem Block.bodyOf_erase (hgrouped : form.grouped) {node : Node α} (h : Block form node) :
    bodyOf node.erase = some node.erase := by
  obtain ⟨-, hne⟩ := h
  obtain ⟨child, rest, hchildren⟩ := List.exists_cons_of_ne_nil (hne hgrouped)
  simp [hchildren, bodyOf]

theorem outlineBody_restores (hgrouped : form.grouped) (loc : α) {body : Option (Node α)}
    (hblock : ∀ block ∈ body, Block form block) (h : ∀ block ∈ body, block.Restores) :
    Gives (Node.outlineBody loc body) fun o => bodyOf o.restore = body.map Node.erase := by
  cases body with
  | none => exact .pure rfl
  | some block =>
      intro o ho
      rw [h block rfl o ho]
      exact (hblock block rfl).bodyOf_erase hgrouped

/-- Arms are restored from their outlines, with at most one outline behind them. -/
def RestoresArms (loc : α) (arms : List (Branch α)) : Prop :=
  Gives (Branch.outlineAll loc arms) fun os => ∀ last : List (Node Unit), last.length ≤ 1 →
    armsOf (restoreAll os ++ last) = arms.map Branch.erase

theorem restoresArms_nil (loc : α) : RestoresArms loc [] := by
  refine .pure fun last hlast => ?_
  -- one node is no pair of a condition and a body
  match last, hlast with
  | [], _ => rfl
  | [node], _ => cases node <;> rfl

theorem restoresArms_of_forall {loc : α} {arms : List (Branch α)}
    (h : ∀ arm ∈ arms, ∀ rest, RestoresArms loc rest → RestoresArms loc (arm :: rest)) :
    RestoresArms loc arms := by
  induction arms with
  | nil => exact restoresArms_nil loc
  | cons arm rest ih =>
      obtain ⟨harm, hrest⟩ := List.forall_mem_cons.1 h
      exact harm rest (ih hrest)

/-- The outline of the body without a condition, if there is one. -/
def Node.outlineElse (loc : α) (hasElse : Bool) (body : Option (Node α)) :
    Except OutlineFault (List (Outline α)) :=
  if hasElse then (fun o => [o]) <$> Node.outlineBody loc body else pure []

theorem Node.outline_conditional {loc : α} {branches : List (Branch α)} {hasElse : Bool}
    {elseBody : Option (Node α)} :
    (Node.conditional loc branches hasElse elseBody).outline = (do
      let arms ← Branch.outlineAll loc branches
      let last ← Node.outlineElse loc hasElse elseBody
      return .mk loc "if" (.choice (numElif branches) hasElse) (arms ++ last)) := by
  cases hasElse <;> rfl

/-- The outline of the body without a condition is the last one. -/
theorem outlineElse_restores {loc : α} {hasElse : Bool} {body : Option (Node α)}
    (h : Gives (Node.outlineBody loc body) fun o => bodyOf o.restore = body.map Node.erase)
    (hnone : hasElse = false → body = none) :
    Gives (Node.outlineElse loc hasElse body) fun last =>
      (restoreAll last).length ≤ 1 ∧ ∀ arms : List (Node Unit),
        (if hasElse then (arms ++ restoreAll last).getLast?.bind bodyOf else none) =
          body.map Node.erase := by
  cases hasElse with
  | false =>
      refine .pure ⟨Nat.zero_le 1, fun _ => ?_⟩
      rw [hnone rfl]
      rfl
  | true =>
      refine h.map fun o ho => ⟨Nat.le_refl 1, fun arms => ?_⟩
      simp [restoreAll, ho]

mutual

theorem Statement.restores (hgrouped : form.grouped) {node : Node α} :
    Statement form node → node.Restores
  | .command _ hwords => hwords.restores_single rfl
  | .comment hwords => hwords.restores_single rfl
  | .call _ hargs => hargs.restores_single rfl
  | .conditional _ harms helse hnone => by
    have harms' (loc : α) := restoresArms_of_forall fun arm harm =>
      (harms arm harm).restores hgrouped loc
    have helse' (loc : α) := outlineBody_restores hgrouped loc helse fun block hblock =>
      (helse block hblock).restores hgrouped
    rw [Node.Restores, Node.outline_conditional]
    refine (harms' _).bind fun os hos => (outlineElse_restores (helse' _) hnone).bind
      fun last hlast => .pure ?_
    obtain ⟨hlength, hbody⟩ := hlast
    rw [restore, assemble_if, restoreAll_append, hos _ hlength, hbody, Node.erase_conditional]
  | .loop _ hcond hbody => by
    have hbody' (loc : α) := outlineBody_restores hgrouped loc hbody fun block hblock =>
      (hbody block hblock).restores hgrouped
    refine hcond.restores.bind fun o ho => (hbody' _).bind fun o' ho' => .pure ?_
    simp only [restore, restoreAll, ho, Node.erase_loop, ← ho']
    rfl
  | .function _ _ hparams hbody => by
    have hbody' (loc : α) := outlineBody_restores hgrouped loc hbody fun block hblock =>
      (hbody block hblock).restores hgrouped
    refine hparams.restores.bind fun o ho => (hbody' _).bind fun o' ho' => .pure ?_
    simp only [restore, restoreAll, ho, Node.erase_function, ← ho']
    rfl

theorem Block.restores (hgrouped : form.grouped) {node : Node α} :
    Block form node → node.Restores
  | .mk hchildren _ =>
    restores_children (fun node hnode => (hchildren node hnode).restores hgrouped)
      Node.erase_block.symm

theorem Arm.restores (hgrouped : form.grouped) (loc : α) {arm : Branch α} : Arm form arm →
    ∀ rest, RestoresArms loc rest → RestoresArms loc (arm :: rest)
  | .mk hcond hbody, rest, hrest => by
    have hbody' := outlineBody_restores hgrouped loc hbody fun block hblock =>
      (hbody block hblock).restores hgrouped
    refine hcond.restores.bind fun o ho => hbody'.bind fun o' ho' => hrest.bind fun os hos =>
      .pure fun last hlast => ?_
    simp only [restoreAll, ho, List.cons_append, armsOf, ho', hos last hlast, List.map_cons,
      Branch.erase_mk]

end

theorem Section.restores (hgrouped : form.grouped) {node : Node α} (h : Section form node) :
    node.Restores := by
  cases h with
  | precondition _ hwords => exact hwords.restores_single rfl
  | block hblock => exact hblock.restores hgrouped

theorem Algorithmic.restores (hgrouped : form.grouped) {node : Node α}
    (h : Algorithmic form node) : node.Restores := by
  obtain ⟨hchildren, -⟩ := h
  exact restores_children (fun child hchild => (hchildren child hchild).restores hgrouped)
    Node.erase_algorithmic.symm

theorem Part.restores (hgrouped : form.grouped) {node : Node α} (h : Part form node) :
    node.Restores := by
  cases h with
  | caption hwords => exact hwords.restores_single rfl
  | algorithmic h => exact h.restores hgrouped

theorem Environment.restores (hgrouped : form.grouped) {node : Node α}
    (h : Environment form node) : node.Restores := by
  cases h with
  | algorithm hparts =>
      exact restores_children (fun part hpart => (hparts part hpart).restores hgrouped)
        Node.erase_algorithm.symm
  | algorithmic h => exact h.restores hgrouped

/-- A document whose blocks hold something is restored from its outline. -/
theorem Document.restores (hgrouped : form.grouped) {tree : Node α} (h : Document form tree) :
    tree.Restores := by
  obtain ⟨henvironments⟩ := h
  exact restores_children (fun node hnode => (henvironments node hnode).restores hgrouped)
    Node.erase_root.symm

/-! ## Outlines without annotations -/

namespace Outline

mutual

/-- Applies a function to every annotation of an outline. -/
def map (f : α → β) : Outline α → Outline β
  | .mk loc type value children => .mk (f loc) type value (mapAll f children)

/-- Applies a function to every annotation of some outlines. -/
def mapAll (f : α → β) : List (Outline α) → List (Outline β)
  | [] => []
  | outline :: rest => outline.map f :: mapAll f rest

end

/-- The outline without its annotations. -/
def erase (outline : Outline α) : Outline Unit := outline.map fun _ => ()

theorem mapAll_append (f : α → β) (l m : List (Outline α)) :
    mapAll f (l ++ m) = mapAll f l ++ mapAll f m := by
  induction l with
  | nil => rfl
  | cons outline rest ih => simp only [List.cons_append, mapAll, ih]

mutual

theorem restore_map (f : α → β) : ∀ outline : Outline α, (outline.map f).restore = outline.restore
  | .mk _ type value children => congrArg (assemble type value) (restoreAll_mapAll f children)

theorem restoreAll_mapAll (f : α → β) : ∀ outlines : List (Outline α),
    restoreAll (mapAll f outlines) = restoreAll outlines
  | [] => rfl
  | outline :: rest => by
    simp only [mapAll, restoreAll, restore_map f outline, restoreAll_mapAll f rest]

end

end Outline

section Map

variable {f : α → β}

theorem numElif_mapAll (branches : List (Branch α)) :
    numElif (Branch.mapAll f branches) = numElif branches := by
  rw [Branch.mapAll_eq, numElif, List.length_map, numElif]

theorem outlineElse_map {loc : α} {hasElse : Bool} {body : Option (Node α)}
    (h : Node.outlineBody (f loc) (Node.mapBody f body) =
      Outline.map f <$> Node.outlineBody loc body) :
    Node.outlineElse (f loc) hasElse (Node.mapBody f body) =
      Outline.mapAll f <$> Node.outlineElse loc hasElse body := by
  cases hasElse with
  | true => simp only [Node.outlineElse, if_true, h, Functor.map_map, Outline.mapAll]
  | false => rfl

mutual

theorem Node.outline_map : ∀ node : Node α,
    (node.map f).outline = Outline.map f <$> node.outline
  | .bare _ | .branch _ | .leaf .. => rfl
  | .root _ children | .algorithm _ children | .algorithmic _ children | .block _ children => by
    simp only [Node.map, Node.outline, Node.outlineAll_map children, bind_map_left, map_bind,
      map_pure]
    rfl
  | .text words => Phrase.outline_map words
  | .caption _ words | .comment _ words | .command _ _ words | .call _ _ words => by
    simp only [Node.map, Node.outline, Phrase.outline_map words, bind_map_left, map_bind, map_pure]
    rfl
  | .loop _ _ words body | .function _ _ _ words body => by
    simp only [Node.map, Node.outline, Phrase.outline_map words, Node.outlineBody_map _ body,
      bind_map_left, map_bind, map_pure]
    rfl
  | .conditional loc branches hasElse elseBody => by
    simp only [Node.map, Node.outline_conditional, Branch.outlineAll_map loc branches,
      outlineElse_map (Node.outlineBody_map loc elseBody), numElif_mapAll, bind_map_left, map_bind,
      map_pure, Outline.map, Outline.mapAll_append]

theorem Phrase.outline_map : ∀ words : Phrase α,
    (words.map f).outline = Outline.map f <$> words.outline
  | .mk _ items => by
    simp only [Phrase.map, Phrase.outline, Node.outlineAll_map items, bind_map_left, map_bind,
      map_pure]
    rfl

theorem Branch.outlineAll_map (loc : α) : ∀ branches : List (Branch α),
    Branch.outlineAll (f loc) (Branch.mapAll f branches) =
      Outline.mapAll f <$> Branch.outlineAll loc branches
  | [] => rfl
  | .mk _ cond body :: rest => by
    simp only [Branch.mapAll, Branch.map, Branch.outlineAll, Phrase.outline_map cond,
      Node.outlineBody_map loc body, Branch.outlineAll_map loc rest, bind_map_left, map_bind,
      map_pure]
    rfl

theorem Node.outlineAll_map : ∀ nodes : List (Node α),
    Node.outlineAll (Node.mapAll f nodes) = Outline.mapAll f <$> Node.outlineAll nodes
  | [] => rfl
  | node :: rest => by
    simp only [Node.mapAll, Node.outlineAll, Node.outline_map node, Node.outlineAll_map rest,
      bind_map_left, map_bind, map_pure]
    rfl

theorem Node.outlineBody_map (loc : α) : ∀ body : Option (Node α),
    Node.outlineBody (f loc) (Node.mapBody f body) = Outline.map f <$> Node.outlineBody loc body
  | none => rfl
  | some node => Node.outline_map node

end

end Map

/-! ## The JSON of an outline -/

namespace Outline

theorem Value.toJson_inj {value value' : Outline.Value} :
    value.toJson = value'.toJson ↔ value = value' := by
  cases value <;> cases value' <;> simp [toJson, and_comm]

mutual

/-- JSON without locations tells outlines apart up to their annotations. -/
theorem toJson_inj : ∀ outline outline' : Outline Location,
    outline.toJson false = outline'.toJson false ↔ outline.erase = outline'.erase
  | .mk _ type value children, .mk _ type' value' children' => by
    have hchildren := toJsonAll_inj children children'
    simp [toJson, locationMember, erase, map, hchildren, Value.toJson_inj]
    tauto

theorem toJsonAll_inj : ∀ outlines outlines' : List (Outline Location),
    toJsonAll false outlines = toJsonAll false outlines' ↔
      mapAll (fun _ => ()) outlines = mapAll (fun _ => ()) outlines'
  | [], [] | [], _ :: _ | _ :: _, [] => by simp [toJsonAll, mapAll]
  | outline :: rest, outline' :: rest' => by
    have houtline := toJson_inj outline outline'
    have hrest := toJsonAll_inj rest rest'
    simp only [toJsonAll, mapAll, List.cons.injEq, houtline, hrest, erase]

end

end Outline

/-- JSON without locations tells trees that are restored from their outlines apart up
to their annotations. -/
theorem Node.Restores.toJson_inj {tree tree' : Node Location} (hrestores : tree.Restores)
    (hrestores' : tree'.Restores) {outline outline' : Outline Location}
    (houtline : tree.outline = .ok outline) (houtline' : tree'.outline = .ok outline') :
    outline.toJson false = outline'.toJson false ↔ tree.erase = tree'.erase := by
  rw [Outline.toJson_inj]
  constructor
  · intro h
    rw [← hrestores outline houtline, ← hrestores' outline' houtline',
      ← restore_map (fun _ => ()) outline, ← restore_map (fun _ => ()) outline']
    exact congrArg restore h
  · intro h
    have herase : tree.erase.outline = .ok outline.erase := by
      rw [Node.erase, Node.outline_map, houtline]
      rfl
    have herase' : tree'.erase.outline = .ok outline'.erase := by
      rw [Node.erase, Node.outline_map, houtline']
      rfl
    rw [h, herase'] at herase
    exact (Except.ok.inj herase).symm

/-- What two sources are read as has outlines, and their JSON is a key for what comes
of the sources. The texts in one indent agree if the values do. The values without
locations agree just if the trees differ in locations only, and then the trees give the
same output and the same formulas, whatever the options and the typesetter are. -/
theorem outline_determines_rendering {source source' : String} {tree tree' : Node Location}
    (hparse : parse source = .ok tree) (hparse' : parse source' = .ok tree') :
    ∃ outline outline', tree.outline = .ok outline ∧ tree'.outline = .ok outline' ∧
      (∀ indent : Option Int, (outline.toJson false).text (.ofIndent indent) =
          (outline'.toJson false).text (.ofIndent indent) ↔
        outline.toJson false = outline'.toJson false) ∧
      (outline.toJson false = outline'.toJson false ↔ tree.erase = tree'.erase) ∧
      (outline.toJson false = outline'.toJson false →
        ∀ (level : Log.Level) (options : Options) (typesetter : Typesetter),
          (renderTree level options typesetter tree).result =
            (renderTree level options typesetter tree').result ∧
          (renderTree level options typesetter tree).formulas =
            (renderTree level options typesetter tree').formulas) := by
  have hnormal := normal_of_parse hparse
  have hnormal' := normal_of_parse hparse'
  obtain ⟨outline, houtline⟩ := Document.outline_succeeds hnormal
  obtain ⟨outline', houtline'⟩ := Document.outline_succeeds hnormal'
  have hinj := (Document.restores trivial hnormal).toJson_inj (Document.restores trivial hnormal')
    houtline houtline'
  refine ⟨outline, outline', houtline, houtline', fun indent => Json.text_inj, hinj, ?_⟩
  intro h level options typesetter
  have hrendering :=
    rendering_eq_of_erase (hinj.1 h) ⟨options, typesetter.getD delimited⟩
  obtain ⟨hresult, hformulas⟩ := hnormal.renderTree_eq level options typesetter
  obtain ⟨hresult', hformulas'⟩ := hnormal'.renderTree_eq level options typesetter
  constructor
  · rw [hresult, hresult', hrendering]
  · rw [hformulas, hformulas', hrendering]

/-- A conditional whose arms are empty, on one line and with its parts apart. -/
theorem outline_determines_rendering_of_empty_arms :
    let source := "\\begin{algorithmic}\\IF{}\\ELSE\\ENDIF\\end{algorithmic}"
    let source' := "\\begin{algorithmic}\n\\IF {}\\ELSE\n\\ENDIF \\end{algorithmic}"
    ∃ tree tree', parse source = .ok tree ∧ parse source' = .ok tree' ∧
      ∃ outline outline', tree.outline = .ok outline ∧ tree'.outline = .ok outline' ∧
        outline.toJson false = outline'.toJson false ∧
        ∀ options, (renderTree .info options none tree).result =
          (renderTree .info options none tree').result := by
  intro source source'
  have htext : source.toList = _ := String.toList_ofList
  have htext' : source'.toList = _ := String.toList_ofList
  have hsame : SameSymbols source.toList source'.toList := by
    rw [htext, htext']
    exact ⟨by decide +kernel, by decide +kernel⟩
  have hparses : ∃ tree, parse source = .ok tree := by
    rw [exists_parse_iff, fault?, parse_of_toList htext]
    decide +kernel
  rcases parse_alike hsame with ⟨tree, tree', htree, htree', herase⟩ | ⟨fault, -, hfault, -⟩
  · obtain ⟨outline, outline', houtline, houtline', -, hkey, hrenders⟩ :=
      outline_determines_rendering htree htree'
    have hjson := hkey.2 herase
    exact ⟨tree, tree', htree, htree', outline, outline', houtline, houtline', hjson,
      fun options => (hrenders hjson .info options none).1⟩
  · obtain ⟨tree, htree⟩ := hparses
    rw [htree] at hfault
    cases hfault

end AlgoBox
