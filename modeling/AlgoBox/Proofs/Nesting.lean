import AlgoBox.Proofs.Vocabulary

/-!
# Nesting of environments

Which environments are open behind some tokens, and whether each of them has a
name that is allowed where it is opened. Only the command words `begin` and
`end` count; everything else is passed over, so this can be asked of any tokens.

* `Document.openEnvironments_eq`: the environments of a document have allowed
  names, and all of them are closed.
-/

namespace AlgoBox

open Grammar Token

/-- The names of the environments that may be opened directly inside some open
environments, the innermost of which is the first. -/
def allowedNames : List String → List String
  | [] => [algorithmName, algorithmicName]
  | innermost :: _ => if innermost = algorithmName then [algorithmicName] else []

/-- The name between braces that some tokens start with. -/
def announced? : List Token → Option String
  | .openBrace :: .ordinary name :: _ => some name
  | _ => none

/-- The environments open behind some tokens, the innermost one first, if each
one opened has a name that is allowed where it stands. -/
def openEnvironments : List String → List Token → Option (List String)
  | outer, [] => some outer
  | outer, .word command :: rest =>
    if command = "begin" then
      match announced? rest with
      | some name =>
        if name ∈ allowedNames outer then openEnvironments (name :: outer) rest else none
      | none => openEnvironments outer rest
    else if command = "end" then openEnvironments outer.tail rest
    else openEnvironments outer rest
  | outer, _ :: rest => openEnvironments outer rest

/-- Each environment that the tokens open has a name that is allowed where it
stands. -/
def WellNamed (w : List Token) : Prop := openEnvironments [] w ≠ none

variable {α : Type} {form : Form} {outer : List String} {name : String} {v w : List Token}

/-- The token neither opens nor closes an environment. -/
def Token.IsFlat (t : Token) : Prop := t ≠ .word "begin" ∧ t ≠ .word "end"

theorem openEnvironments_cons {t : Token} (ht : t.IsFlat) :
    openEnvironments outer (t :: w) = openEnvironments outer w := by
  cases t with
  | word command =>
      have hbegin : command ≠ "begin" := fun h => ht.1 (by rw [h])
      have hend : command ≠ "end" := fun h => ht.2 (by rw [h])
      rw [openEnvironments, if_neg hbegin, if_neg hend]
  | _ => rfl

theorem openEnvironments_append (hv : AllTokens Token.IsFlat v) :
    openEnvironments outer (v ++ w) = openEnvironments outer w := by
  induction v with
  | nil => rfl
  | cons t rest ih =>
      rw [allTokens_cons] at hv
      rw [List.cons_append, openEnvironments_cons hv.1, ih hv.2]

theorem openEnvironments_begin :
    openEnvironments outer (.word "begin" :: .openBrace :: .ordinary name :: w) =
      if name ∈ allowedNames outer then openEnvironments (name :: outer) w else none := by
  have inside : openEnvironments (name :: outer) (.openBrace :: .ordinary name :: w) =
      openEnvironments (name :: outer) w :=
    openEnvironments_append (v := [.openBrace, .ordinary name]) (by simp [Token.IsFlat])
  rw [openEnvironments, if_pos rfl, ← inside]
  rfl

theorem openEnvironments_opening (h : name ∈ allowedNames outer) :
    openEnvironments outer (opening name ++ w) = openEnvironments (name :: outer) w := by
  show openEnvironments outer
    (.word "begin" :: .openBrace :: .ordinary name :: .closeBrace :: w) = _
  rw [openEnvironments_begin, if_pos h, openEnvironments_cons (by simp [Token.IsFlat])]

theorem openEnvironments_closing :
    openEnvironments outer (closing name ++ w) = openEnvironments outer.tail w := by
  show openEnvironments outer (.word "end" :: .openBrace :: .ordinary name :: .closeBrace :: w) = _
  rw [openEnvironments, if_neg (by decide), if_pos rfl]
  iterate 3 rw [openEnvironments_cons (by simp [Token.IsFlat])]

/-- Inside environments there is nothing but flat tokens. -/
theorem covers_isFlat (form : Form) : Covers form Token.IsFlat where
  leaf item hknown _ := by
    have flat : ∀ keyword ∈ boolWords ++ sizeWords ++ fontWords, Token.IsFlat (.word keyword) := by
      simp [Token.IsFlat, boolWords, sizeWords, fontWords]
    cases item with
    | ordinary | math | special => simp [Leaf.token, Token.IsFlat]
    | bool | size | font => exact flat _ (by simp_all [Leaf.IsKnown])
  openBrace := by simp [Token.IsFlat]
  closeBrace := by simp [Token.IsFlat]
  command := by
    simp [Token.IsFlat, commandWords, preconditionWords, statementWords, loopWords, functionWords]

theorem openEnvironments_tokensAll {nodes : List (Node α)}
    (h : ∀ node ∈ nodes, ∀ w,
      openEnvironments outer (node.tokens ++ w) = openEnvironments outer w) :
    openEnvironments outer (Node.tokensAll nodes ++ w) = openEnvironments outer w := by
  induction nodes with
  | nil => rfl
  | cons node rest ih =>
      rw [Node.tokensAll, List.append_assoc, h node List.mem_cons_self]
      exact ih fun x hx => h x (List.mem_cons_of_mem _ hx)

theorem Algorithmic.openEnvironments_eq {node : Node α} (h : Algorithmic form node)
    (hallowed : algorithmicName ∈ allowedNames outer) :
    openEnvironments outer (node.tokens ++ w) = openEnvironments outer w := by
  obtain ⟨hchildren, -⟩ := h
  rw [Node.tokens, List.append_assoc, List.append_assoc, openEnvironments_opening hallowed,
    openEnvironments_tokensAll fun x hx w => ?_, openEnvironments_closing, List.tail_cons]
  exact openEnvironments_append ((hchildren x hx).forall_tokens (covers_isFlat form))

theorem Part.openEnvironments_eq {node : Node α} (h : Part form node) :
    openEnvironments [algorithmName] (node.tokens ++ w) = openEnvironments [algorithmName] w := by
  cases h with
  | caption hwords => exact openEnvironments_append ((covers_isFlat form).caption hwords)
  | algorithmic h => exact h.openEnvironments_eq (by decide)

theorem Environment.openEnvironments_eq {node : Node α} (h : Environment form node) :
    openEnvironments [] (node.tokens ++ w) = openEnvironments [] w := by
  cases h with
  | algorithm hparts =>
      rw [Node.tokens, List.append_assoc, List.append_assoc,
        openEnvironments_opening (by decide),
        openEnvironments_tokensAll fun x hx w => (hparts x hx).openEnvironments_eq,
        openEnvironments_closing, List.tail_cons]
  | algorithmic h => exact h.openEnvironments_eq (by decide)

theorem Document.openEnvironments_eq {node : Node α} (h : Document form node) :
    openEnvironments [] node.tokens = some [] := by
  obtain ⟨henvironments⟩ := h
  rw [Node.tokens,
    openEnvironments_tokensAll fun x hx w => (henvironments x hx).openEnvironments_eq,
    openEnvironments_cons (by simp [Token.IsFlat])]
  rfl

theorem Sentence.wellNamed (h : Sentence w) : WellNamed w := by
  obtain ⟨tree, hdocument, rfl⟩ := h
  unfold WellNamed
  rw [hdocument.openEnvironments_eq]
  exact Option.some_ne_none _

end AlgoBox
