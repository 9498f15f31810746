import AlgoBox.Proofs.Restoring
import AlgoBox.Proofs.Unreported

/-!
# Levels of logging

At the lowest level the outline of a tree is written to the log before the tree
is rendered, and a tree that has no outline fails there. Which trees these are
is told by `Node.strays`: the nodes that an outline meets and does not know.
Rendering need not meet them, since it passes over all captions but the last,
and where it does it fails in another way. What is read from a source has none.
-/

namespace AlgoBox

open Html Source

variable {α β γ : Type}

/-! ## Nodes without an outline -/

mutual

/-- The types of the nodes that an outline meets and does not know, in order. -/
def Node.strays : Node α → List String
  | node@(.bare _) | node@(.branch _) => [node.typeName]
  | .root _ children | .algorithm _ children | .algorithmic _ children | .block _ children =>
    Node.straysAll children
  | .text words | .caption _ words | .comment _ words | .command _ _ words | .call _ _ words =>
    words.strays
  | .loop _ _ words body | .function _ _ _ words body => words.strays ++ Node.straysBody body
  | .conditional _ branches hasElse elseBody =>
    Branch.straysAll branches ++ if hasElse then Node.straysBody elseBody else []
  | .leaf .. => []

/-- The types of such nodes in a phrase. -/
def Phrase.strays : Phrase α → List String
  | .mk _ items => Node.straysAll items

/-- The types of such nodes in the conditions and bodies of some arms. -/
def Branch.straysAll : List (Branch α) → List String
  | [] => []
  | .mk _ cond body :: rest => cond.strays ++ (Node.straysBody body ++ Branch.straysAll rest)

/-- The types of such nodes in some trees. -/
def Node.straysAll : List (Node α) → List String
  | [] => []
  | node :: rest => node.strays ++ Node.straysAll rest

/-- The types of such nodes in a body. -/
def Node.straysBody : Option (Node α) → List String
  | none => []
  | some node => node.strays

end

/-- Something is computed if there are no strays, and fails at the first one otherwise. -/
def Meets (x : Except OutlineFault β) : List String → Prop
  | [] => Succeeds x
  | name :: _ => x = .error ⟨name⟩

namespace Meets

variable {x : Except OutlineFault β} {f : β → Except OutlineFault γ} {l m : List String}

theorem pure (b : β) : Meets (pure b) [] := ⟨b, rfl⟩

theorem bind (hx : Meets x l) (hf : ∀ b, Meets (f b) m) : Meets (x >>= f) (l ++ m) := by
  cases l with
  | nil =>
      obtain ⟨b, rfl⟩ := hx
      exact hf b
  | cons name rest =>
      rw [show x = .error ⟨name⟩ from hx]
      rfl

theorem map {g : β → γ} (hx : Meets x l) : Meets (x >>= fun b => Pure.pure (g b)) l := by
  have h := hx.bind fun b => .pure (g b)
  rwa [List.append_nil] at h

end Meets

mutual

/-- The outline of a tree fails at the first node that it does not know. -/
theorem Node.outline_meets : ∀ node : Node α, Meets node.outline node.strays
  | .bare _ | .branch _ => rfl
  | .root _ children | .algorithm _ children | .algorithmic _ children | .block _ children =>
    (Node.outlineAll_meets children).map
  | .text words => words.outline_meets
  | .caption _ words | .comment _ words | .command _ _ words | .call _ _ words =>
    words.outline_meets.map
  | .loop loc _ words body | .function loc _ _ words body =>
    words.outline_meets.bind fun _ => (Node.outlineBody_meets loc body).map
  | .conditional loc branches hasElse elseBody => by
    rw [Node.outline_conditional]
    refine (Branch.outlineAll_meets loc branches).bind fun _ => Meets.map ?_
    cases hasElse with
    | true => exact (Node.outlineBody_meets loc elseBody).map
    | false => exact .pure []
  | .leaf .. => .pure _

theorem Phrase.outline_meets : ∀ words : Phrase α, Meets words.outline words.strays
  | .mk _ items => (Node.outlineAll_meets items).map

theorem Branch.outlineAll_meets (loc : α) : ∀ branches : List (Branch α),
    Meets (Branch.outlineAll loc branches) (Branch.straysAll branches)
  | [] => .pure []
  | .mk _ cond body :: rest =>
    cond.outline_meets.bind fun _ => (Node.outlineBody_meets loc body).bind fun _ =>
      (Branch.outlineAll_meets loc rest).map

theorem Node.outlineAll_meets : ∀ nodes : List (Node α),
    Meets (Node.outlineAll nodes) (Node.straysAll nodes)
  | [] => .pure []
  | node :: rest => node.outline_meets.bind fun _ => (Node.outlineAll_meets rest).map

theorem Node.outlineBody_meets (loc : α) : ∀ body : Option (Node α),
    Meets (Node.outlineBody loc body) (Node.straysBody body)
  | none => .pure _
  | some node => node.outline_meets

end

/-- A tree has an outline just if there is no node in it that an outline does not know. -/
theorem Node.outline_succeeds_iff {node : Node α} : Succeeds node.outline ↔ node.strays = [] := by
  have h := node.outline_meets
  cases hstrays : node.strays with
  | nil =>
      rw [hstrays] at h
      exact ⟨fun _ => rfl, fun _ => h⟩
  | cons name rest =>
      rw [hstrays] at h
      refine ⟨?_, nofun⟩
      rintro ⟨outline, houtline⟩
      cases houtline.symm.trans h

/-! ## Rendering at different levels -/

/-- Above the lowest level a tree is only rendered. -/
theorem renderTree_result_of_ne {level : Log.Level} (h : level ≠ .debug) (options : Options)
    (typesetter : Typesetter) (tree : Node α) :
    (renderTree level options typesetter tree).result =
      (tree.rendering ⟨options, typesetter.getD delimited⟩).markup.mapError .render := by
  cases level with
  | debug => exact absurd rfl h
  | info | warning => rfl

/-- At the lowest level the first stray of a tree decides, and a tree without strays is
rendered. -/
theorem renderTree_result_debug (options : Options) (typesetter : Typesetter) (tree : Node α) :
    (tree.strays = [] ∧ (renderTree .debug options typesetter tree).result =
      (tree.rendering ⟨options, typesetter.getD delimited⟩).markup.mapError .render) ∨
    ∃ name rest, tree.strays = name :: rest ∧
      (renderTree .debug options typesetter tree).result = .error (.outline ⟨name⟩) := by
  have h := tree.outline_meets
  unfold renderTree
  cases hstrays : tree.strays with
  | nil =>
      rw [hstrays] at h
      obtain ⟨outline, houtline⟩ := h
      rw [houtline]
      exact .inl ⟨rfl, rfl⟩
  | cons name rest =>
      rw [hstrays] at h
      rw [show tree.outline = .error ⟨name⟩ from h]
      exact .inr ⟨name, rest, rfl, rfl⟩

/-- Without strays a tree is rendered at every level. -/
theorem renderTree_result_of_strays {tree : Node α} (h : tree.strays = []) (level : Log.Level)
    (options : Options) (typesetter : Typesetter) :
    (renderTree level options typesetter tree).result =
      (tree.rendering ⟨options, typesetter.getD delimited⟩).markup.mapError .render := by
  by_cases hlevel : level = .debug
  · rw [hlevel]
    rcases renderTree_result_debug options typesetter tree with
      ⟨-, hdebug⟩ | ⟨name, rest, hstrays, -⟩
    · exact hdebug
    · rw [h] at hstrays
      cases hstrays
  · exact renderTree_result_of_ne hlevel options typesetter tree

/-- What a source is read as has no strays. -/
theorem strays_of_parse {source : String} {tree : Node Location} (h : parse source = .ok tree) :
    tree.strays = [] :=
  Node.outline_succeeds_iff.1 (Document.outline_succeeds (normal_of_parse h))

theorem Options.Choice.read_result_eq (level : Log.Level) (choice : Options.Choice) :
    (choice.read level).result = choice.options.mapError .options := by
  cases choice with
  | made options => rfl
  | mapping entries => exact read_result level entries

/-- What comes of a source is the same at every level. -/
theorem toHtml_result_eq (level level' : Log.Level) (request : Options.Request)
    (typesetter : Typesetter) (source : Option String) :
    (toHtml level request typesetter source).result =
      (toHtml level' request typesetter source).result := by
  unfold toHtml
  simp only [Conversion.result_bind, readTree_result, Options.Choice.read_result_eq]
  refine bind_congr fun choice => bind_congr fun source => bind_congr fun options => ?_
  cases hparse : parse source with
  | error fault => rfl
  | ok tree =>
      have hstrays := strays_of_parse hparse
      have hresult := renderTree_result_of_strays hstrays level options typesetter
      exact hresult.trans (renderTree_result_of_strays hstrays level' options typesetter).symm

/-- A tree gives the same at all levels but the lowest. At the lowest level it gives what
it gives at the others if there is no node in it that an outline does not know, and
fails at the first such node otherwise, in a way in which rendering never fails. What is
read from a source has no such node, so what comes of a source does not depend on the
level. -/
theorem log_level_matters_iff (options : Options) (typesetter : Typesetter) (tree : Node α) :
    (∀ level, level ≠ .debug → (renderTree level options typesetter tree).result =
      (renderTree .warning options typesetter tree).result) ∧
    (∀ name rest, tree.strays = name :: rest →
      (renderTree .debug options typesetter tree).result = .error (.outline ⟨name⟩)) ∧
    ((∀ level, (renderTree level options typesetter tree).result =
      (renderTree .warning options typesetter tree).result) ↔ tree.strays = []) ∧
    ∀ (request : Options.Request) (source : Option String) (level level' : Log.Level),
      (toHtml level request typesetter source).result =
        (toHtml level' request typesetter source).result := by
  have habove : Log.Level.warning ≠ .debug := nofun
  have hwarning := renderTree_result_of_ne habove options typesetter tree
  have hquiet : ∀ level, level ≠ .debug → (renderTree level options typesetter tree).result =
      (renderTree .warning options typesetter tree).result := by
    intro level hlevel
    rw [hwarning, renderTree_result_of_ne hlevel]
  refine ⟨hquiet, ?_, ⟨?_, ?_⟩, fun request source level level' =>
    toHtml_result_eq level level' request typesetter source⟩
  · intro name rest hstrays
    rcases renderTree_result_debug options typesetter tree with
      ⟨hnone, -⟩ | ⟨name', rest', hstrays', hdebug⟩
    · rw [hnone] at hstrays
      cases hstrays
    · rw [hstrays] at hstrays'
      cases hstrays'
      exact hdebug
  · intro h
    rcases renderTree_result_debug options typesetter tree with
      ⟨hnone, -⟩ | ⟨name, rest, -, hdebug⟩
    · exact hnone
    · have hsame := h .debug
      rw [hdebug, hwarning] at hsame
      -- what rendering fails with is never a fault of an outline
      cases hmarkup : (tree.rendering ⟨options, typesetter.getD delimited⟩).markup with
      | error fault =>
          rw [hmarkup] at hsame
          cases hsame
      | ok html =>
          rw [hmarkup] at hsame
          cases hsame
  · intro hstrays level
    rw [hwarning, renderTree_result_of_strays hstrays]

/-- A node of no known type in the first of two captions: only the second one is rendered,
and the outline fails. -/
theorem log_level_matters :
    let tree : Node Unit := .root () [.algorithm ()
      [.caption () (.mk () [.bare ()]), .caption () (.mk () [])]]
    (∃ html, (renderTree .warning Options.default none tree).result = .ok html) ∧
      (renderTree .debug Options.default none tree).result = .error (.outline ⟨"node"⟩) :=
  ⟨⟨_, rfl⟩, rfl⟩

end AlgoBox
