import AlgoBox.Proofs.PlaceBlind
import AlgoBox.Proofs.RenderTotal

/-!
# Layout between symbols does not matter

Two sources that are cut into symbols of the same kinds and texts cannot be told
apart (`layout_irrelevant`): both are read as trees that differ in locations only
and give the same output, or both fail with the same message. What is skipped
between symbols decides where they stand, and nothing looks at that: no production
does (`document_blind`), and rendering never opens an annotation
(`Node.render_map`).
-/

namespace AlgoBox

open Html Page AlgoBox.Symbol Reader

variable {α β : Type}

/-! ## Rendering does not look at annotations -/

theorem Node.isCaption_map (f : α → β) (node : Node α) :
    (node.map f).isCaption = node.isCaption := by
  cases node <;> rfl

theorem any_isCaption_mapAll (f : α → β) (nodes : List (Node α)) :
    (Node.mapAll f nodes).any Node.isCaption = nodes.any Node.isCaption := by
  rw [Node.mapAll_eq, List.any_map]
  exact congrArg nodes.any (funext (Node.isCaption_map f))

/-- The node is a leaf. -/
def Node.IsLeaf : Node α → Prop
  | .leaf .. => True
  | _ => False

/-- What is no leaf is written by itself, wherever it stands. -/
theorem renderItems_cons {setup : Setup} {node : Node α} (h : ¬node.IsLeaf)
    (rest : List (Node α)) :
    Node.renderItems setup (node :: rest) =
      (do node.render setup; Node.renderItems setup rest) := by
  cases node with
  | leaf => exact absurd trivial h
  | _ => rfl

theorem renderParts_cons {setup : Setup} {node : Node α} (h : node.isCaption = false)
    (rest : List (Node α)) :
    Node.renderParts setup (node :: rest) =
      (do node.render setup; Node.renderParts setup rest) := by
  cases node with
  | caption => cases h
  | _ => rfl

theorem renderLastCaption_cons {setup : Setup} {node : Node α} (h : node.isCaption = false)
    (rest : List (Node α)) :
    Node.renderLastCaption setup (node :: rest) = Node.renderLastCaption setup rest := by
  cases node with
  | caption => cases h
  | _ => rfl

section Render

variable (setup : Setup) (f : α → β)

mutual

theorem Node.render_map : ∀ node : Node α, (node.map f).render setup = node.render setup
  | .bare _ | .branch _ | .leaf .. => rfl
  | .root _ children | .algorithmic _ children | .block _ children => by
    simp only [Node.map, Node.render, Node.renderAll_map children]
  | .algorithm _ children => by
    simp only [Node.map, Node.render, Node.renderLastCaption_map children,
      Node.renderParts_map children, any_isCaption_mapAll]
  | .text words | .caption _ words | .comment _ words | .command _ _ words | .call _ _ words => by
    simp only [Node.map, Node.render, Phrase.render_map words]
  | .conditional _ branches _ elseBody => by
    simp only [Node.map, Node.render, Branch.renderAll_map branches, Node.renderBody_map elseBody]
  | .loop _ _ words body | .function _ _ _ words body => by
    simp only [Node.map, Node.render, Phrase.render_map words, Node.renderBody_map body]

theorem Phrase.render_map : ∀ words : Phrase α, (words.map f).render setup = words.render setup
  | .mk _ items => by simp only [Phrase.map, Phrase.render, Node.renderItems_map items]

theorem Node.renderItems_map : ∀ items : List (Node α),
    Node.renderItems setup (Node.mapAll f items) = Node.renderItems setup items
  | [] => rfl
  | node :: rest => by
    have hrest := Node.renderItems_map rest
    have hnode := Node.render_map node
    rw [Node.mapAll]
    by_cases hleaf : node.IsLeaf
    · cases node with
      | leaf => simp only [Node.map, Node.renderItems, hrest]
      | _ => exact hleaf.elim
    · have hleaf' : ¬(node.map f).IsLeaf := by
        cases node with
        | leaf => exact absurd trivial hleaf
        | _ => exact id
      rw [renderItems_cons hleaf, renderItems_cons hleaf', hnode, hrest]

theorem Node.renderAll_map : ∀ nodes : List (Node α),
    Node.renderAll setup (Node.mapAll f nodes) = Node.renderAll setup nodes
  | [] => rfl
  | node :: rest => by
    simp only [Node.mapAll, Node.renderAll, Node.render_map node, Node.renderAll_map rest]

theorem Node.renderLastCaption_map : ∀ nodes : List (Node α),
    Node.renderLastCaption setup (Node.mapAll f nodes) = Node.renderLastCaption setup nodes
  | [] => rfl
  | node :: rest => by
    have hrest := Node.renderLastCaption_map rest
    have hnode := Node.render_map node
    rw [Node.mapAll]
    cases hcaption : node.isCaption with
    | true =>
        cases node with
        | caption _ words =>
            have hwords := Phrase.render_map words
            simp only [Node.map, Node.renderLastCaption, hrest, hwords, any_isCaption_mapAll]
        | _ => cases hcaption
    | false =>
        rw [renderLastCaption_cons hcaption,
          renderLastCaption_cons (hcaption ▸ Node.isCaption_map f node), hrest]

theorem Node.renderParts_map : ∀ nodes : List (Node α),
    Node.renderParts setup (Node.mapAll f nodes) = Node.renderParts setup nodes
  | [] => rfl
  | node :: rest => by
    have hrest := Node.renderParts_map rest
    have hnode := Node.render_map node
    rw [Node.mapAll]
    cases hcaption : node.isCaption with
    | true =>
        cases node with
        | caption => simp only [Node.map, Node.renderParts, hrest]
        | _ => cases hcaption
    | false =>
        rw [renderParts_cons hcaption, renderParts_cons (hcaption ▸ Node.isCaption_map f node),
          hnode, hrest]

theorem Branch.renderAll_map : ∀ arms : List (Branch α),
    Branch.renderAll setup (Branch.mapAll f arms) = Branch.renderAll setup arms
  | [] => rfl
  | .mk _ cond body :: rest => by
    simp only [Branch.mapAll, Branch.map, Branch.renderAll, Phrase.render_map cond,
      Node.renderBody_map body, Branch.renderAll_map rest]

theorem Node.renderBody_map : ∀ body : Option (Node α),
    Node.renderBody setup (Node.mapBody f body) = Node.renderBody setup body
  | none => rfl
  | some node => Node.render_map node

end

end Render

/-- Trees that differ in annotations only are rendered in the same way. -/
theorem rendering_eq_of_erase {tree : Node α} {tree' : Node β} (h : tree.erase = tree'.erase)
    (setup : Setup) : tree.rendering setup = tree'.rendering setup := by
  have herase : ∀ {γ : Type} (node : Node γ), node.erase.render setup = node.render setup :=
    fun node => Node.render_map setup _ node
  unfold Node.rendering
  rw [← herase tree, ← herase tree', h]

/-! ## Sources with the same symbols -/

/-- The symbols of two sources agree in kinds and texts, and both sources are cut
to their end or neither is. -/
structure SameSymbols (source source' : List Char) : Prop where
  symbols : (scan source).symbols.map label = (scan source').symbols.map label
  ending : (scan source).ending.isComplete = (scan source').ending.isComplete

/-- Readers of such sources see the same, or the first symbol of neither can be
recognized. -/
theorem SameSymbols.ofSource {source source' : List Char} (h : SameSymbols source source') :
    (∃ r r', Reader.ofSource source = .ok r ∧ Reader.ofSource source' = .ok r' ∧
      r.seen = r'.seen) ∨
    (∃ offset offset', Reader.ofSource source = .error ⟨.unrecognizable, offset⟩ ∧
      Reader.ofSource source' = .error ⟨.unrecognizable, offset'⟩) := by
  obtain ⟨hsymbols, hending⟩ := h
  unfold Reader.ofSource
  generalize scan source = cut at *
  generalize scan source' = cut' at *
  obtain ⟨symbols, ending⟩ := cut
  obtain ⟨symbols', ending'⟩ := cut'
  cases symbols with
  | nil =>
      cases symbols' with
      | cons s' rest' => cases hsymbols
      | nil =>
          cases ending <;> cases ending' <;> try cases hending
          · exact .inl ⟨_, _, rfl, rfl, rfl⟩
          · exact .inr ⟨_, _, rfl, rfl⟩
  | cons s rest =>
      cases symbols' with
      | nil => cases hsymbols
      | cons s' rest' =>
          obtain ⟨hcurrent, hupcoming⟩ := List.cons.inj hsymbols
          refine .inl ⟨_, _, rfl, rfl, ?_⟩
          simp only [seen, hcurrent, hupcoming]
          rw [show ending.isComplete = ending'.isComplete from hending]

/-- Readers that see the same are read as the same tree, or meet a fault of the
same cause. -/
theorem read_alike {r r' : Reader} (h : r.seen = r'.seen) :
    (∃ node node', Grammar.read r = .ok node ∧ Grammar.read r' = .ok node' ∧
      node.erase = node'.erase) ∨
    (∃ fault fault', Grammar.read r = .error fault ∧ Grammar.read r' = .error fault' ∧
      fault.cause = fault'.cause) := by
  have hends := Grammar.document_blind h (Nat.le_refl _)
  unfold Grammar.read
  rw [← remaining_eq_of_seen h]
  generalize Grammar.document r.remaining r = x at *
  generalize Grammar.document r.remaining r' = y at *
  cases hends with
  | ok hnode _ _ => exact .inl ⟨_, _, rfl, rfl, hnode⟩
  | error hcause _ => exact .inr ⟨_, _, rfl, rfl, hcause⟩
  | left hleft => exact hleft.elim

/-- Sources with the same symbols are read as trees that differ in locations only,
or fail for the same cause. -/
theorem parse_alike {source source' : String} (h : SameSymbols source.toList source'.toList) :
    (∃ tree tree', parse source = .ok tree ∧ parse source' = .ok tree' ∧
      tree.erase = tree'.erase) ∨
    (∃ fault fault', parse source = .error fault ∧ parse source' = .error fault' ∧
      fault.cause = fault'.cause) := by
  rw [parse_eq, parse_eq]
  rcases h.ofSource with ⟨r, r', hr, hr', hseen⟩ | ⟨offset, offset', hr, hr'⟩
  · rw [hr, hr']
    rcases read_alike hseen with ⟨node, node', hnode, hnode', herase⟩ |
      ⟨fault, fault', hfault, hfault', hcause⟩
    · refine .inl ⟨_, _, congrArg (Except.map _) hnode, congrArg (Except.map _) hnode', ?_⟩
      rw [Node.erase_map, Node.erase_map, herase]
    · exact .inr ⟨fault, fault', congrArg (Except.map _) hfault, congrArg (Except.map _) hfault',
        hcause⟩
  · rw [hr, hr']
    exact .inr ⟨_, _, rfl, rfl, rfl⟩

/-- What stands between symbols does not matter. Two sources whose symbols agree in
kinds and texts are both read, as trees that differ in locations only, and then
give the same output and the same formulas, whatever the options and the
typesetter are; or neither is read, and the faults have the same category and the
same message. -/
theorem layout_irrelevant {source source' : String}
    (h : SameSymbols source.toList source'.toList) :
    (∃ tree tree', parse source = .ok tree ∧ parse source' = .ok tree' ∧
      tree.erase = tree'.erase ∧
      ∀ (level : Log.Level) (options : Options) (typesetter : Typesetter),
        (renderTree level options typesetter tree).result =
          (renderTree level options typesetter tree').result ∧
        (renderTree level options typesetter tree).formulas =
          (renderTree level options typesetter tree').formulas ∧
        ((∃ s, options.commentSymbol = .text s) → (∃ s, options.lineNumberPunc = .text s) →
          ∃ html, (renderTree level options typesetter tree).result = .ok html)) ∨
    (∃ fault fault', parse source = .error fault ∧ parse source' = .error fault' ∧
      fault.cause.category = fault'.cause.category ∧
      fault.cause.message = fault'.cause.message) := by
  rcases parse_alike h with ⟨tree, tree', htree, htree', herase⟩ |
    ⟨fault, fault', hfault, hfault', hcause⟩
  · refine .inl ⟨tree, tree', htree, htree', herase, fun level options typesetter => ?_⟩
    have hnormal := normal_of_parse htree
    obtain ⟨hresult, hformulas⟩ := hnormal.renderTree_eq level options typesetter
    obtain ⟨hresult', hformulas'⟩ := (normal_of_parse htree').renderTree_eq level options typesetter
    have hrendering := rendering_eq_of_erase herase ⟨options, typesetter.getD delimited⟩
    refine ⟨?_, ?_, ?_⟩
    · rw [hresult, hresult', hrendering]
    · rw [hformulas, hformulas', hrendering]
    · intro hsymbol hpunc
      have : options.Textual := ⟨hsymbol, hpunc⟩
      obtain ⟨html, hhtml⟩ := hnormal.exists_rendering ⟨options, typesetter.getD delimited⟩
      refine ⟨html, ?_⟩
      rw [hresult, hhtml]
      rfl
  · refine .inr ⟨fault, fault', hfault, hfault', ?_, ?_⟩
    · rw [hcause]
    · rw [hcause]

/-- A line break between two statements, and blanks behind command words and in
front of braces. -/
theorem layout_irrelevant_between_statements :
    let source := "\\begin{algorithmic}\\STATE$x$\\IF{a }\\ENDIF\\end{algorithmic}"
    let source' := " \\begin {algorithmic}\n\\STATE  $x$\n\\IF { a } \\ENDIF\\end{algorithmic}\n"
    SameSymbols source.toList source'.toList ∧
      ∃ tree tree', parse source = .ok tree ∧ parse source' = .ok tree' ∧
        tree.erase = tree'.erase := by
  intro source source'
  have htext : source.toList = _ := String.toList_ofList
  have htext' : source'.toList = _ := String.toList_ofList
  have hsame : SameSymbols source.toList source'.toList := by
    rw [htext, htext']
    exact ⟨by decide +kernel, by decide +kernel⟩
  have hparse : ∃ tree, parse source = .ok tree := by
    rw [exists_parse_iff, fault?, parse_of_toList htext]
    decide +kernel
  refine ⟨hsame, ?_⟩
  rcases layout_irrelevant hsame with ⟨tree, tree', htree, htree', herase, -⟩ | ⟨fault, -, hfault, -⟩
  · exact ⟨tree, tree', htree, htree', herase⟩
  · obtain ⟨tree, htree⟩ := hparse
    rw [htree] at hfault
    cases hfault

end AlgoBox
