import AlgoBox.Proofs.Agreement
import AlgoBox.Proofs.Derivation
import AlgoBox.Proofs.Erasure
import AlgoBox.Proofs.Progress

/-!
# Completeness of the productions

Every production gives back the grouped tree that its tokens were written for,
whenever what stands behind the tokens does not let it go on. One symbol tells:
`StartsItem` and `StartsStatement` are what a phrase and a block go on with.
-/

namespace AlgoBox

open AlgoBox.Symbol Grammar Reader

/-! ## What the tokens of trees start with -/

/-- The leaf that a token becomes by the first of some forms that fits. -/
def leafAmong (t : Token) : List (Kind × Wanted × (String → Leaf)) → Option Leaf
  | [] => none
  | (kind, wanted, form) :: rest =>
    if t.fits kind wanted then some (form (t.text.getD "")) else leafAmong t rest

/-- A phrase goes on with the token. -/
def Token.StartsItem (t : Token) : Prop := leafAmong t leafForms ≠ none ∨ t = .openBrace

/-- The commands that statements start with. -/
def statementStarts : List String :=
  ["IF", "COMMENT", "CALL"] ++ loopWords ++ functionWords ++ statementWords

/-- A block goes on with the token. -/
def Token.StartsStatement (t : Token) : Prop := ∃ name ∈ statementStarts, t = .word name

/-- A section starts with the token. -/
def Token.StartsSection (t : Token) : Prop :=
  t.StartsStatement ∨ ∃ name ∈ preconditionWords, t = .word name

/-- A part of an algorithm starts with the token. -/
def Token.StartsPart (t : Token) : Prop := t = .word "caption" ∨ t = .word "begin"

/-- A phrase or a block goes on with the token. -/
def Token.GoesOn (t : Token) : Prop := t.StartsItem ∨ t.StartsStatement

theorem leafAmong_token {item : Leaf} (h : item.IsKnown) :
    leafAmong item.token leafForms = some item := by
  have vocabulary :
      (∀ keyword ∈ boolWords, leafAmong (.word keyword) leafForms = some (.bool keyword)) ∧
      (∀ name ∈ sizeWords, leafAmong (.word name) leafForms = some (.size name)) ∧
      (∀ name ∈ fontWords, leafAmong (.word name) leafForms = some (.font name)) := by
    decide
  cases item with
  | ordinary | math | special => rfl
  | bool keyword => exact vocabulary.1 keyword h
  | size name => exact vocabulary.2.1 name h
  | font name => exact vocabulary.2.2 name h

/-- The commands that end a block. -/
def blockEnds : List String :=
  ["ELIF", "ELSE", "ENDIF", "end"] ++ preconditionWords ++ loopWords.map ("END" ++ ·)
    ++ functionWords.map ("END" ++ ·)

theorem not_startsItem {name : String} (h : name ∈ statementStarts ++ blockEnds) :
    ¬Token.StartsItem (.word name) := by
  have none : ∀ name ∈ statementStarts ++ blockEnds, leafAmong (.word name) leafForms = none := by
    decide
  rintro (hleaf | hbrace)
  · exact hleaf (none name h)
  · cases hbrace

theorem not_goesOn {name : String} (h : name ∈ blockEnds) : ¬Token.GoesOn (.word name) := by
  have apart : ∀ name ∈ blockEnds, name ∉ statementStarts := by decide
  rintro (hitem | ⟨_, hstart, ⟨⟩⟩)
  · exact not_startsItem (List.mem_append_right _ h) hitem
  · exact apart name h hstart

theorem not_startsItem_closeBrace : ¬Token.StartsItem .closeBrace := by
  rintro (hleaf | hbrace)
  · exact hleaf rfl
  · cases hbrace

theorem Token.StartsStatement.not_startsItem {t : Token} (h : t.StartsStatement) :
    ¬t.StartsItem := by
  obtain ⟨name, hname, rfl⟩ := h
  exact AlgoBox.not_startsItem (List.mem_append_left _ hname)

/-- The tokens start with one that has a property. -/
def StartsWith (P : Token → Prop) (w : List Token) : Prop := ∃ t rest, w = t :: rest ∧ P t

section StartsWith

variable {α : Type} {P Q : Token → Prop} {w v : List Token} {nodes : List (Node α)}

theorem StartsWith.mono (h : StartsWith P w) (hPQ : ∀ t, P t → Q t) : StartsWith Q w := by
  obtain ⟨t, rest, hw, ht⟩ := h
  exact ⟨t, rest, hw, hPQ t ht⟩

theorem StartsWith.ne_nil (h : StartsWith P w) : w ≠ [] := by
  obtain ⟨t, rest, rfl, -⟩ := h
  exact List.cons_ne_nil t rest

/-- Tokens that start with one that is not the end of the source count. -/
theorem StartsWith.weight_pos (h : StartsWith P w) (hP : ∀ t, P t → t ≠ .endOfSource) :
    0 < weight w := by
  obtain ⟨t, rest, rfl, ht⟩ := h
  unfold weight
  rw [List.countP_cons_of_pos (by simpa using hP t ht)]
  exact Nat.succ_pos _

theorem StartsWith.notAhead (h : StartsWith P w) (hPQ : ∀ t, P t → ¬Q t) : NotAhead Q (w ++ v) := by
  obtain ⟨t, rest, rfl, ht⟩ := h
  exact notAhead_cons.2 (hPQ t ht)

theorem tokensAll_eq_nil (h : ∀ node ∈ nodes, StartsWith P node.tokens) :
    Node.tokensAll nodes = [] ↔ nodes = [] := by
  cases nodes with
  | nil => exact iff_of_true rfl rfl
  | cons node rest =>
      refine iff_of_false ?_ (List.cons_ne_nil _ _)
      rw [Node.tokensAll]
      exact List.append_ne_nil_of_left_ne_nil (h node List.mem_cons_self).ne_nil _

theorem notAhead_tokensAll (h : ∀ node ∈ nodes, StartsWith P node.tokens)
    (hPQ : ∀ t, P t → ¬Q t) (hv : NotAhead Q v) : NotAhead Q (Node.tokensAll nodes ++ v) := by
  cases nodes with
  | nil => exact hv
  | cons node rest =>
      rw [Node.tokensAll, List.append_assoc]
      exact (h node List.mem_cons_self).notAhead hPQ

end StartsWith

theorem Token.StartsItem.ne_end {t : Token} (h : t.StartsItem) : t ≠ .endOfSource := by
  intro heq
  subst heq
  rcases h with hleaf | hbrace
  · exact hleaf rfl
  · cases hbrace

theorem Token.StartsStatement.ne_end {t : Token} (h : t.StartsStatement) : t ≠ .endOfSource := by
  obtain ⟨name, -, rfl⟩ := h
  exact nofun

theorem Token.StartsSection.ne_end {t : Token} (h : t.StartsSection) : t ≠ .endOfSource := by
  rcases h with h | ⟨name, -, rfl⟩
  · exact h.ne_end
  · exact nofun

theorem Token.StartsSection.not_startsItem {t : Token} (h : t.StartsSection) : ¬t.StartsItem := by
  rcases h with h | ⟨name, hname, rfl⟩
  · exact h.not_startsItem
  · have hmem : ∀ name ∈ preconditionWords, name ∈ statementStarts ++ blockEnds := by decide
    exact AlgoBox.not_startsItem (hmem name hname)

theorem Item.startsWith {form : Form} {α : Type} {node : Node α} (h : Item form node) :
    StartsWith Token.StartsItem node.tokens := by
  cases h with
  | leaf hknown _ =>
      refine ⟨_, [], rfl, .inl ?_⟩
      rw [leafAmong_token hknown]
      exact Option.some_ne_none _
  | group => exact ⟨_, _, rfl, .inr rfl⟩

theorem Statement.startsWith {form : Form} {α : Type} {node : Node α} (h : Statement form node) :
    StartsWith Token.StartsStatement node.tokens := by
  cases h with
  | command hname _ => exact ⟨_, _, rfl, _, by simp [statementStarts, hname], rfl⟩
  | comment => exact ⟨_, _, rfl, _, by decide, rfl⟩
  | call => exact ⟨_, _, rfl, _, by decide, rfl⟩
  | conditional hne =>
      obtain ⟨arm, rest, rfl⟩ := List.exists_cons_of_ne_nil hne
      exact ⟨_, _, rfl, _, by decide, rfl⟩
  | loop hkeyword => exact ⟨_, _, rfl, _, by simp [statementStarts, hkeyword], rfl⟩
  | function hkind => exact ⟨_, _, rfl, _, by simp [statementStarts, hkind], rfl⟩

theorem Block.startsWith {form : Form} {α : Type} {node : Node α} (h : Block form node)
    (hform : form.grouped) : StartsWith Token.StartsStatement node.tokens := by
  obtain ⟨hstatements, hne⟩ := h
  obtain ⟨first, rest, rfl⟩ := List.exists_cons_of_ne_nil (hne hform)
  obtain ⟨t, more, htokens, ht⟩ := (hstatements first List.mem_cons_self).startsWith
  refine ⟨t, more ++ Node.tokensAll rest, ?_, ht⟩
  rw [Node.tokens, Node.tokensAll, htokens, List.cons_append]

theorem Section.startsWith {form : Form} {α : Type} {node : Node α} (h : Section form node)
    (hform : form.grouped) : StartsWith Token.StartsSection node.tokens := by
  cases h with
  | precondition hname _ => exact ⟨_, _, rfl, .inr ⟨_, hname, rfl⟩⟩
  | block hblock => exact (hblock.startsWith hform).mono fun _ => .inl

theorem Token.StartsPart.ne_end {t : Token} (h : t.StartsPart) : t ≠ .endOfSource := by
  rcases h with rfl | rfl
  · exact nofun
  · exact nofun

theorem Part.startsWith {form : Form} {α : Type} {node : Node α} (h : Part form node) :
    StartsWith Token.StartsPart node.tokens := by
  cases h with
  | caption => exact ⟨_, _, rfl, .inl rfl⟩
  | algorithmic h =>
      cases h
      exact ⟨_, _, rfl, .inr rfl⟩

theorem Environment.startsWith {form : Form} {α : Type} {node : Node α}
    (h : Environment form node) :
    StartsWith (· = .word "begin") node.tokens := by
  cases h with
  | algorithm => exact ⟨_, _, rfl, rfl⟩
  | algorithmic h =>
      cases h
      exact ⟨_, _, rfl, rfl⟩

namespace Grammar

open Token

variable {β γ : Type} {N M : Nat} {w v : List Token} {P : β → Prop} {Q : γ → Prop}

/-! ## Rules for what the productions begin with -/

theorem follows_here_bind {f : Nat → ReadM γ} (hf : ∀ start, Follows N (f start) w v Q) :
    Follows N (here >>= f) w v Q := by
  unfold here
  simp only [bind_assoc, pure_bind]
  exact .get_bind fun r => hf _

theorem follows_spanFrom_bind {start : Nat} {f : Span → ReadM γ}
    (hf : ∀ span, Follows N (f span) w v Q) : Follows N (spanFrom start >>= f) w v Q := by
  unfold spanFrom
  simp only [bind_assoc, pure_bind]
  exact .get_bind fun r => hf _

section Accept

variable {kind : Kind} {wanted : Wanted} {t : Token} {f : Option String → ReadM γ}
  [Shrinks (f none)] [∀ b, Shrinks (f (some b))]

theorem follows_accept_some (hkind : kind ≠ .endOfSource) (hfits : t.fits kind wanted = true)
    (hf : Follows N (f (some (t.text.getD ""))) w v Q) :
    Follows (N + 1) (accept kind wanted >>= f) (t :: w) v Q := by
  have hweight : N + 1 ≤ N + weight [t] := by
    have hne := Follows.ne_endOfSource hkind hfits
    simp [weight, hne]
  refine Follows.bind_some (u := [t]) (Follows.accept hkind hfits) hweight ?_
  intro b hb
  subst hb
  exact hf

theorem follows_accept_none (hkind : kind ≠ .endOfSource)
    (hno : NotAhead (fun t => t.fits kind wanted = true) (w ++ v)) (hf : Follows N (f none) w v Q) :
    Follows N (accept kind wanted >>= f) w v Q :=
  .bind_none (.accept_none hkind hno) hf

theorem follows_wordOf_some {text : String} {texts : List String} (hmem : text ∈ texts)
    (hf : Follows N (f (some text)) w v Q) :
    Follows (N + 1) (wordOf? texts >>= f) (.word text :: w) v Q :=
  follows_accept_some (by decide) (fits_word_oneOf.2 ⟨text, hmem, rfl⟩) hf

theorem follows_wordOf_none {texts : List String}
    (hno : NotAhead (fun t => ∃ name ∈ texts, t = .word name) (w ++ v))
    (hf : Follows N (f none) w v Q) : Follows N (wordOf? texts >>= f) w v Q :=
  follows_accept_none (by decide) (hno.mono fun _ => fits_word_oneOf.1) hf

end Accept

section Word

variable {text : String} {f : Bool → ReadM γ} [∀ b, Shrinks (f b)]

theorem follows_word_true (hf : Follows N (f true) w v Q) :
    Follows (N + 1) (word? text >>= f) (.word text :: w) v Q := by
  unfold word?
  simp only [bind_assoc, pure_bind]
  exact follows_accept_some (by decide) (fits_word_only.2 rfl) hf

theorem follows_word_false (hno : NotAhead (· = .word text) (w ++ v))
    (hf : Follows N (f false) w v Q) : Follows N (word? text >>= f) w v Q := by
  unfold word?
  simp only [bind_assoc, pure_bind]
  exact follows_accept_none (by decide) (hno.mono fun _ => fits_word_only.1) hf

end Word

section Expect

variable {f : Unit → ReadM γ} [∀ b, Shrinks (f b)]

theorem follows_expect_bind {kind : Kind} {wanted : Wanted} {t : Token} {f : String → ReadM γ}
    [∀ b, Shrinks (f b)] (hkind : kind ≠ .endOfSource) (hfits : t.fits kind wanted = true)
    (hf : Follows N (f (t.text.getD "")) w v Q) :
    Follows N (expect kind wanted >>= f) (t :: w) v Q := by
  refine Follows.bind (u := [t]) (Follows.expect hkind hfits) (Nat.le_add_right _ _) ?_
  intro b hb
  subst hb
  exact hf

theorem follows_closingWord_bind {text : String} (hf : Follows N (f ()) w v Q) :
    Follows N (closingWord text >>= f) (.word text :: w) v Q := by
  unfold closingWord
  simp only [discard_eq, bind_assoc, pure_bind]
  exact follows_expect_bind (by decide) (fits_word_only.2 rfl) hf

theorem follows_openBrace_bind (hf : Follows N (f ()) w v Q) :
    Follows N (openBrace >>= f) (.openBrace :: w) v Q := by
  unfold openBrace
  simp only [discard_eq, bind_assoc, pure_bind]
  exact follows_expect_bind (by decide) (fits_openBrace.2 rfl) hf

theorem follows_closeBrace_bind (hf : Follows N (f ()) w v Q) :
    Follows N (closeBrace >>= f) (.closeBrace :: w) v Q := by
  unfold closeBrace
  simp only [discard_eq, bind_assoc, pure_bind]
  exact follows_expect_bind (by decide) (fits_closeBrace.2 rfl) hf

theorem follows_bracedName_bind {name : String} {f : String → ReadM γ} [∀ b, Shrinks (f b)]
    (hf : Follows N (f name) w v Q) :
    Follows N (Grammar.bracedName >>= f) (Token.bracedName name ++ w) v Q := by
  unfold Grammar.bracedName
  simp only [bind_assoc, pure_bind]
  refine follows_openBrace_bind ?_
  refine follows_expect_bind (by decide) (t := .ordinary name) rfl ?_
  exact follows_closeBrace_bind hf

end Expect

/-! ## Phrases -/

open Follows (Found)

/-- The node that is read is a given tree. -/
def Is (tree : Node Unit) (node : Node Span) : Prop := node.erase = tree

/-- The nodes that are read are given trees. -/
def Are (trees : List (Node Unit)) (nodes : List (Node Span)) : Prop := nodes.map Node.erase = trees

/-- The body that is read is a given one. -/
def IsBody (tree : Option (Node Unit)) (body : Option (Node Span)) : Prop :=
  body.map Node.erase = tree

theorem Are.cons {tree : Node Unit} {trees : List (Node Unit)} {node : Node Span}
    {nodes : List (Node Span)} (h : Is tree node) (hs : Are trees nodes) :
    Are (tree :: trees) (node :: nodes) :=
  congrArg₂ List.cons h hs

/-- A repetition whose bound is zero: where nothing remains, there is no tree. -/
theorem follows_exhausted {P : Token → Prop} {trees : List (Node Unit)}
    (htrees : ∀ tree ∈ trees, StartsWith P tree.tokens) (hP : ∀ t, P t → t ≠ .endOfSource) :
    Follows 0 (pure []) (Node.tokensAll trees) v (Are trees) := by
  refine .exhausted (fun h => ?_) ?_
  · rw [tokensAll_eq_nil htrees] at h
    rw [h]
    rfl
  · rw [← List.append_nil (Node.tokensAll trees)]
    exact notAhead_tokensAll htrees hP notAhead_nil

theorem leafOf?_some {t : Token} {item : Leaf} {forms : List (Kind × Wanted × (String → Leaf))}
    (hkinds : ∀ form ∈ forms, form.1 ≠ .endOfSource) (h : leafAmong t forms = some item) :
    Follows (N + 1) (leafOf? forms) [t] v (Found (· = item)) := by
  induction forms with
  | nil => cases h
  | cons form rest ih =>
      obtain ⟨kind, wanted, make⟩ := form
      rw [List.forall_mem_cons] at hkinds
      unfold leafOf?
      unfold leafAmong at h
      split at h
      · rename_i hfits
        cases h
        exact follows_accept_some hkinds.1 hfits (.pure ⟨_, rfl, rfl⟩)
      · rename_i hfits
        exact follows_accept_none hkinds.1 (notAhead_cons.2 hfits) (ih hkinds.2 h)

theorem leafOf?_none {forms : List (Kind × Wanted × (String → Leaf))}
    (hkinds : ∀ form ∈ forms, form.1 ≠ .endOfSource)
    (hno : NotAhead (fun t => leafAmong t forms ≠ none) v) :
    Follows N (leafOf? forms) [] v (· = none) := by
  induction forms with
  | nil => exact .pure rfl
  | cons form rest ih =>
      obtain ⟨kind, wanted, make⟩ := form
      rw [List.forall_mem_cons] at hkinds
      unfold leafOf?
      refine follows_accept_none hkinds.1 (hno.mono fun t ht => ?_)
        (ih hkinds.2 (hno.mono fun t ht => ?_))
      · rw [leafAmong, if_pos ht]
        exact Option.some_ne_none _
      · rw [leafAmong]
        split
        · exact Option.some_ne_none _
        · exact ht

theorem leafForms_kinds : ∀ form ∈ leafForms, form.1 ≠ Kind.endOfSource := by
  simp [leafForms]

theorem leaf?_some {item : Leaf} (h : item.IsKnown) :
    Follows (N + 1) leaf? [item.token] v (Found (Is (.leaf () item))) := by
  unfold leaf?
  refine follows_here_bind fun start => ?_
  refine Follows.bind_some (leafOf?_some leafForms_kinds (leafAmong_token h))
    (Nat.le_add_right _ _) ?_
  intro b hb
  subst hb
  exact follows_spanFrom_bind fun span => .pure ⟨_, rfl, rfl⟩

theorem leaf?_none (hno : NotAhead (fun t => leafAmong t leafForms ≠ none) v) :
    Follows N leaf? [] v (· = none) := by
  unfold leaf?
  refine follows_here_bind fun start => ?_
  exact .bind_none (leafOf?_none leafForms_kinds hno) (.pure rfl)

theorem items_follows (bound : Nat) : ∀ {trees : List (Node Unit)} {v : List Token},
    (∀ tree ∈ trees, Item .grouping tree) → NotAhead StartsItem v →
    Follows bound (items bound) (Node.tokensAll trees) v (Are trees) := by
  induction bound with
  | zero =>
      intro trees v htrees _
      exact follows_exhausted (fun tree htree => (htrees tree htree).startsWith)
        fun t => StartsItem.ne_end
  | succ bound ih =>
      intro trees v htrees hv
      unfold items
      cases trees with
      | nil =>
          refine Follows.bind_none (i := .bind_option inferInstance inferInstance)
            (leaf?_none (hv.mono fun t => .inl)) ?_
          refine follows_accept_none (by decide) (hv.mono fun t ht => .inr (fits_openBrace.1 ht)) ?_
          exact .pure rfl
      | cons tree rest =>
          rw [List.forall_mem_cons] at htrees
          rw [Node.tokensAll]
          cases htrees.1 with
          | leaf hknown _ =>
              refine Follows.bind_some (i := .bind_option inferInstance inferInstance) (M := bound)
                (leaf?_some hknown) ?_ fun leaf hleaf => ?_
              · have hpos := htrees.1.startsWith.weight_pos fun t => StartsItem.ne_end
                exact Nat.add_le_add_left hpos _
              · exact (ih htrees.2 hv).map fun nodes hnodes => Are.cons hleaf hnodes
          | group hitems _ =>
              -- a brace is no leaf, and behind it the rule is used inside and outside the group
              refine Follows.bind_none (i := .bind_option inferInstance inferInstance)
                (leaf?_none ?_) ?_
              · exact notAhead_cons.2 fun h => h rfl
              rw [Node.tokens, Phrase.tokens, braced, List.cons_append, List.append_assoc]
              refine follows_accept_some (by decide) rfl ?_
              refine follows_here_bind fun start => ?_
              refine Follows.bind (ih hitems ?_) (Nat.le_add_right _ _) fun inner hinner => ?_
              · exact notAhead_cons.2 not_startsItem_closeBrace
              refine follows_spanFrom_bind fun span => ?_
              refine follows_closeBrace_bind ?_
              refine (ih htrees.2 hv).map fun nodes hnodes => Are.cons ?_ hnodes
              show Node.erase _ = _
              rw [Node.erase_text, Phrase.erase_mk, hinner]

/-- The phrase that is read is a given one. -/
def IsPhrase (tree : Phrase Unit) (words : Phrase Span) : Prop := words.erase = tree

theorem phrase_follows {bound : Nat} {words : Phrase Unit} (h : Words .grouping words)
    (hv : NotAhead StartsItem v) :
    Follows bound (phrase bound) words.tokens v (IsPhrase words) := by
  obtain ⟨hitems, -⟩ := h
  unfold phrase
  refine follows_here_bind fun start => ?_
  rw [Phrase.tokens, ← List.append_nil (Node.tokensAll _)]
  refine Follows.bind (items_follows bound hitems hv) (Nat.le_add_right _ _) fun inner hinner => ?_
  refine follows_spanFrom_bind fun span => .pure ?_
  show Phrase.erase _ = _
  rw [Phrase.erase_mk, hinner]

theorem bracedPhrase_follows {bound : Nat} {words : Phrase Unit} (h : Words .grouping words) :
    Follows bound (bracedPhrase bound) (braced words.tokens) v (IsPhrase words) := by
  unfold bracedPhrase
  refine follows_openBrace_bind ?_
  refine Follows.bind (phrase_follows h ?_) (Nat.le_add_right _ _) fun read hread => ?_
  · exact notAhead_cons.2 not_startsItem_closeBrace
  · exact follows_closeBrace_bind (.pure hread)

/-! ## Statements -/

theorem command?_some {words : List String} {bound : Nat} {name : String} {text : Phrase Unit}
    (hname : name ∈ words) (htext : Words .grouping text) (hv : NotAhead StartsItem v) :
    Follows (bound + 1) (command? words bound) (.word name :: text.tokens) v
      (Found (Is (.command () name text))) := by
  unfold command?
  refine follows_here_bind fun start => ?_
  refine follows_wordOf_some hname ?_
  rw [← List.append_nil text.tokens]
  refine Follows.bind (phrase_follows htext hv) (Nat.le_add_right _ _) ?_
  intro read hread
  subst hread
  exact follows_spanFrom_bind fun span => .pure ⟨_, rfl, rfl⟩

theorem command?_none {words : List String} {bound : Nat}
    (hno : NotAhead (fun t => ∃ name ∈ words, t = .word name) v) :
    Follows N (command? words bound) [] v (· = none) := by
  unfold command?
  refine follows_here_bind fun start => ?_
  exact follows_wordOf_none hno (.pure rfl)

theorem comment?_some {bound : Nat} {text : Phrase Unit} (htext : Words .grouping text) :
    Follows (bound + 1) (comment? bound) (.word "COMMENT" :: braced text.tokens) v
      (Found (Is (.comment () text))) := by
  unfold comment?
  refine follows_here_bind fun start => ?_
  refine follows_word_true ?_
  rw [← List.append_nil (braced _)]
  refine Follows.bind (bracedPhrase_follows htext) (Nat.le_add_right _ _) ?_
  intro read hread
  subst hread
  exact follows_spanFrom_bind fun span => .pure ⟨_, rfl, rfl⟩

theorem comment?_none {bound : Nat} (hno : NotAhead (· = .word "COMMENT") v) :
    Follows N (comment? bound) [] v (· = none) := by
  unfold comment?
  refine follows_here_bind fun start => ?_
  exact follows_word_false hno (.pure rfl)

theorem call?_some {bound : Nat} {name : String} {args : Phrase Unit}
    (hargs : Words .grouping args) :
    Follows (bound + 1) (call? bound)
      (.word "CALL" :: (Token.bracedName name ++ braced args.tokens)) v
      (Found (Is (.call () name args))) := by
  unfold call?
  refine follows_here_bind fun start => ?_
  refine follows_word_true ?_
  refine follows_bracedName_bind ?_
  rw [← List.append_nil (braced _)]
  refine Follows.bind (bracedPhrase_follows hargs) (Nat.le_add_right _ _) ?_
  intro read hread
  subst hread
  exact follows_spanFrom_bind fun span => .pure ⟨_, rfl, rfl⟩

theorem call?_none {bound : Nat} (hno : NotAhead (· = .word "CALL") v) :
    Follows N (call? bound) [] v (· = none) := by
  unfold call?
  refine follows_here_bind fun start => ?_
  exact follows_word_false hno (.pure rfl)

/-- A computation reads bodies. -/
def ReadsBodies (bound : Nat) (body : ReadM (Option (Node Span))) : Prop :=
  ∀ (tree : Option (Node Unit)) (v : List Token), (∀ block ∈ tree, Block .grouping block) →
    NotAhead GoesOn v → Follows bound body (Node.tokensBody tree) v (IsBody tree)

/-- The arm that is read is a given one. -/
def IsArm (tree : Branch Unit) (arm : Branch Span) : Prop := arm.erase = tree

/-- The arms that are read are given ones. -/
def AreArms (trees : List (Branch Unit)) (arms : List (Branch Span)) : Prop :=
  arms.map Branch.erase = trees

/-- Behind an arm there is another one, or the end of the arms. -/
theorem notAhead_laterArms {trees : List (Branch Unit)} (hv : NotAhead GoesOn v) :
    NotAhead GoesOn (Branch.tokensAll "ELIF" trees ++ v) := by
  cases trees with
  | nil => exact hv
  | cons tree rest => exact notAhead_cons.2 (not_goesOn (by decide))

section Bodies

variable {bound : Nat} {body : ReadM (Option (Node Span))} [Shrinks body]

theorem arm_follows {start : Nat} {tree : Branch Unit} (hbody : ReadsBodies bound body)
    (h : Arm .grouping tree) (hv : NotAhead GoesOn v) :
    Follows bound (arm bound body start) tree.tokens v (IsArm tree) := by
  obtain ⟨hcond, hblock⟩ := h
  unfold arm
  rw [Branch.tokens, ← List.append_nil (Node.tokensBody _)]
  refine Follows.bind (bracedPhrase_follows hcond) (Nat.le_add_right _ _) ?_
  intro cond hcond
  subst hcond
  refine Follows.bind (hbody _ _ hblock hv) (Nat.le_add_right _ _) ?_
  intro inner hinner
  subst hinner
  refine follows_spanFrom_bind fun span => .pure ?_
  show Branch.erase _ = _
  rw [Branch.erase_mk]

theorem laterArms_follows {count : Nat} (hbody : ReadsBodies bound body) (hcount : count ≤ bound) :
    ∀ {trees : List (Branch Unit)} {v : List Token}, (∀ tree ∈ trees, Arm .grouping tree) →
      NotAhead GoesOn v → NotAhead (· = .word "ELIF") v →
      Follows count (laterArms (arm bound body) count) (Branch.tokensAll "ELIF" trees) v
        (AreArms trees) := by
  induction count with
  | zero =>
      intro trees v _ _ _
      refine .exhausted (fun h => ?_) ?_
      · cases trees with
        | nil => rfl
        | cons tree rest => cases h
      · cases trees with
        | nil => exact notAhead_nil
        | cons tree rest => exact notAhead_cons.2 nofun
  | succ count ih =>
      intro trees v htrees hv helif
      unfold laterArms
      refine follows_here_bind fun start => ?_
      cases trees with
      | nil => exact follows_word_false helif (.pure rfl)
      | cons tree rest =>
          rw [List.forall_mem_cons] at htrees
          rw [Branch.tokensAll]
          refine follows_word_true ?_
          have harm : Follows count (arm bound body start) tree.tokens
              (Branch.tokensAll "ELIF" rest ++ v) (IsArm tree) :=
            (arm_follows hbody htrees.1 (notAhead_laterArms hv)).mono (by omega) fun _ => id
          refine Follows.bind harm (Nat.le_add_right _ _) fun first hfirst => ?_
          exact (ih (by omega) htrees.2 hv helif).map fun later hlater =>
            congrArg₂ List.cons hfirst hlater

/-- Behind the last arm stands `ELSE` or `ENDIF`, and neither goes on with a body or an arm. -/
theorem notAhead_behindArms {hasElse : Bool} {elseBody : Option (Node Unit)}
    (hnone : hasElse = false → elseBody = none) :
    let behind := (if hasElse then [Token.word "ELSE"] else []) ++
      (Node.tokensBody elseBody ++ [.word "ENDIF"]) ++ v
    NotAhead GoesOn behind ∧ NotAhead (· = .word "ELIF") behind := by
  cases hasElse with
  | true => exact ⟨notAhead_cons.2 (not_goesOn (by decide)), notAhead_cons.2 (by decide)⟩
  | false =>
      rw [hnone rfl]
      exact ⟨notAhead_cons.2 (not_goesOn (by decide)), notAhead_cons.2 (by decide)⟩

theorem conditional?_some {branches : List (Branch Unit)} {hasElse : Bool}
    {elseBody : Option (Node Unit)} (hbody : ReadsBodies bound body) (hne : branches ≠ [])
    (harms : ∀ arm ∈ branches, Arm .grouping arm)
    (helse : ∀ block ∈ elseBody, Block .grouping block)
    (hnone : hasElse = false → elseBody = none) :
    Follows (bound + 1) (conditional? bound body)
      (Node.conditional () branches hasElse elseBody).tokens v
      (Found (Is (.conditional () branches hasElse elseBody))) := by
  obtain ⟨first, later, rfl⟩ := List.exists_cons_of_ne_nil hne
  rw [List.forall_mem_cons] at harms
  obtain ⟨hgoesOn, helif⟩ := notAhead_behindArms (v := v) hnone
  unfold conditional?
  refine follows_here_bind fun start => ?_
  rw [Node.tokens, Branch.tokensAll, List.cons_append, List.append_assoc]
  refine follows_word_true ?_
  refine Follows.bind (arm_follows hbody harms.1 ?_) (Nat.le_add_right _ _) fun one hone => ?_
  · rw [List.append_assoc]
    exact notAhead_laterArms hgoesOn
  refine Follows.bind (laterArms_follows hbody (Nat.le_refl _) harms.2 hgoesOn helif)
    (Nat.le_add_right _ _) fun others hothers => ?_
  have hgives : ∀ span (inner : Option (Node Span)), IsBody elseBody inner →
      Is (.conditional () (first :: later) hasElse elseBody)
        (.conditional span (one :: others) hasElse inner) := by
    intro span inner hinner
    subst hinner
    show Node.erase _ = _
    rw [Node.erase_conditional, List.map_cons, hone, hothers]
  cases hasElse with
  | false =>
      obtain rfl : elseBody = none := hnone rfl
      refine follows_word_false (notAhead_cons.2 (by decide)) ?_
      show Follows _ (pure none >>= _) _ _ _
      rw [pure_bind]
      refine follows_closingWord_bind ?_
      exact follows_spanFrom_bind fun span => .pure ⟨_, rfl, hgives span none rfl⟩
  | true =>
      -- the bound of the whole is spent on IF, so ELSE is read within the smaller one
      show Follows bound _ (.word "ELSE" :: (Node.tokensBody elseBody ++ [.word "ENDIF"])) v _
      refine Follows.mono (follows_word_true ?_) (Nat.le_succ _) fun _ => id
      refine Follows.bind (hbody _ _ helse ?_) (Nat.le_add_right _ _) fun inner hinner => ?_
      · exact notAhead_cons.2 (not_goesOn (by decide))
      refine follows_closingWord_bind ?_
      exact follows_spanFrom_bind fun span => .pure ⟨_, rfl, hgives span inner hinner⟩

theorem conditional?_none (hno : NotAhead (· = .word "IF") v) :
    Follows N (conditional? bound body) [] v (· = none) := by
  unfold conditional?
  refine follows_here_bind fun start => ?_
  exact follows_word_false hno (.pure rfl)

theorem loop?_some {keyword : String} {cond : Phrase Unit} {inner : Option (Node Unit)}
    (hbody : ReadsBodies bound body) (hkeyword : keyword ∈ loopWords) (hcond : Words .grouping cond)
    (hinner : ∀ block ∈ inner, Block .grouping block) :
    Follows (bound + 1) (loop? bound body) (Node.loop () keyword cond inner).tokens v
      (Found (Is (.loop () keyword cond inner))) := by
  have hend : "END" ++ keyword ∈ blockEnds := by
    simp only [blockEnds, List.mem_append, List.mem_map]
    exact .inl (.inr ⟨keyword, hkeyword, rfl⟩)
  unfold loop?
  refine follows_here_bind fun start => ?_
  rw [Node.tokens]
  refine follows_wordOf_some hkeyword ?_
  refine Follows.bind (bracedPhrase_follows hcond) (Nat.le_add_right _ _) ?_
  intro cond hcond
  subst hcond
  refine Follows.bind (hbody _ _ hinner ?_) (Nat.le_add_right _ _) ?_
  · exact notAhead_cons.2 (not_goesOn hend)
  · intro inner hinner
    subst hinner
    refine follows_closingWord_bind ?_
    exact follows_spanFrom_bind fun span => .pure ⟨_, rfl, Node.erase_loop⟩

theorem loop?_none (hno : NotAhead (fun t => ∃ name ∈ loopWords, t = .word name) v) :
    Follows N (loop? bound body) [] v (· = none) := by
  unfold loop?
  refine follows_here_bind fun start => ?_
  exact follows_wordOf_none hno (.pure rfl)

theorem function?_some {kind name : String} {params : Phrase Unit} {inner : Option (Node Unit)}
    (hbody : ReadsBodies bound body) (hkind : kind ∈ functionWords)
    (hparams : Words .grouping params)
    (hinner : ∀ block ∈ inner, Block .grouping block) :
    Follows (bound + 1) (function? bound body) (Node.function () kind name params inner).tokens v
      (Found (Is (.function () kind name params inner))) := by
  have hend : "END" ++ kind ∈ blockEnds := by
    simp only [blockEnds, List.mem_append, List.mem_map]
    exact .inr ⟨kind, hkind, rfl⟩
  unfold function?
  refine follows_here_bind fun start => ?_
  rw [Node.tokens]
  refine follows_wordOf_some hkind ?_
  refine follows_bracedName_bind ?_
  refine Follows.bind (bracedPhrase_follows hparams) (Nat.le_add_right _ _) ?_
  intro params hparams
  subst hparams
  refine Follows.bind (hbody _ _ hinner ?_) (Nat.le_add_right _ _) ?_
  · exact notAhead_cons.2 (not_goesOn hend)
  · intro inner hinner
    subst hinner
    refine follows_closingWord_bind ?_
    exact follows_spanFrom_bind fun span => .pure ⟨_, rfl, Node.erase_function⟩

theorem function?_none (hno : NotAhead (fun t => ∃ name ∈ functionWords, t = .word name) v) :
    Follows N (function? bound body) [] v (· = none) := by
  unfold function?
  refine follows_here_bind fun start => ?_
  exact follows_wordOf_none hno (.pure rfl)

theorem orElse?_first {first second : ReadM (Option (Node Span))} [Shrinks first] [Shrinks second]
    {tree : Node Unit} (h : Follows N first w v (Found (Is tree))) :
    Follows N (orElse? first second) w v (Found (Is tree)) := by
  unfold orElse?
  rw [← List.append_nil w]
  exact Follows.bind_some h (Nat.le_add_right _ _) fun node hnode => .pure ⟨node, rfl, hnode⟩

theorem orElse?_second {first second : ReadM (Option (Node Span))} [Shrinks first] [Shrinks second]
    {P : Option (Node Span) → Prop} (hfirst : Follows N first [] (w ++ v) (· = none))
    (hsecond : Follows N second w v P) : Follows N (orElse? first second) w v P := by
  unfold orElse?
  exact Follows.bind_none hfirst hsecond

theorem statement?_none (hno : NotAhead StartsStatement v) :
    Follows N (statement? bound body) [] v (· = none) := by
  have only : ∀ name ∈ statementStarts, NotAhead (· = .word name) v :=
    fun name hname => hno.mono fun t ht => ⟨name, hname, ht⟩
  have oneOf : ∀ names ⊆ statementStarts, NotAhead (fun t => ∃ name ∈ names, t = .word name) v :=
    fun names hnames => hno.mono fun t ⟨name, hname, ht⟩ => ⟨name, hnames hname, ht⟩
  refine orElse?_second (conditional?_none (only _ (by decide))) ?_
  refine orElse?_second (loop?_none (oneOf _ (by decide))) ?_
  refine orElse?_second (function?_none (oneOf _ (by decide))) ?_
  refine orElse?_second (command?_none (oneOf _ (by decide))) ?_
  refine orElse?_second (comment?_none (only _ (by decide))) ?_
  exact call?_none (only _ (by decide))

theorem statement?_some {tree : Node Unit} (hbody : ReadsBodies bound body)
    (h : Statement .grouping tree) (hv : NotAhead StartsItem v) :
    Follows (bound + 1) (statement? bound body) tree.tokens v (Found (Is tree)) := by
  -- a production declines a statement that starts with another command
  have only : ∀ {name text : String} {w : List Token}, name ≠ text →
      NotAhead (· = .word text) (.word name :: w) := by
    intro name text w hne
    refine notAhead_cons.2 ?_
    rintro ⟨⟩
    exact hne rfl
  have oneOf : ∀ {name : String} {names : List String} {w : List Token}, name ∉ names →
      NotAhead (fun t => ∃ name ∈ names, t = .word name) (.word name :: w) := by
    intro name names w hname
    refine notAhead_cons.2 ?_
    rintro ⟨_, hmem, ⟨⟩⟩
    exact hname hmem
  have loops : ∀ keyword ∈ loopWords, keyword ≠ "IF" := by decide
  have functions : ∀ kind ∈ functionWords, kind ≠ "IF" ∧ kind ∉ loopWords := by decide
  have commands : ∀ name ∈ statementWords,
      name ≠ "IF" ∧ name ∉ loopWords ∧ name ∉ functionWords := by decide
  unfold statement?
  cases h with
  | conditional hne harms helse hnone =>
      exact orElse?_first (conditional?_some hbody hne harms helse hnone)
  | loop hkeyword hcond hinner =>
      refine orElse?_second (conditional?_none (only (loops _ hkeyword))) ?_
      exact orElse?_first (loop?_some hbody hkeyword hcond hinner)
  | function hkind _ hparams hinner =>
      obtain ⟨hif, hloop⟩ := functions _ hkind
      refine orElse?_second (conditional?_none (only hif)) ?_
      refine orElse?_second (loop?_none (oneOf hloop)) ?_
      exact orElse?_first (function?_some hbody hkind hparams hinner)
  | command hname hwords =>
      obtain ⟨hif, hloop, hfunction⟩ := commands _ hname
      refine orElse?_second (conditional?_none (only hif)) ?_
      refine orElse?_second (loop?_none (oneOf hloop)) ?_
      refine orElse?_second (function?_none (oneOf hfunction)) ?_
      exact orElse?_first (command?_some hname hwords hv)
  | comment hwords =>
      refine orElse?_second (conditional?_none (only (by decide))) ?_
      refine orElse?_second (loop?_none (oneOf (by decide))) ?_
      refine orElse?_second (function?_none (oneOf (by decide))) ?_
      refine orElse?_second (command?_none (oneOf (by decide))) ?_
      exact orElse?_first (comment?_some hwords)
  | call _ hargs =>
      refine orElse?_second (conditional?_none (only (by decide))) ?_
      refine orElse?_second (loop?_none (oneOf (by decide))) ?_
      refine orElse?_second (function?_none (oneOf (by decide))) ?_
      refine orElse?_second (command?_none (oneOf (by decide))) ?_
      refine orElse?_second (comment?_none (only (by decide))) ?_
      exact call?_some hargs

end Bodies

theorem blockOf?_follows {bound : Nat} {read : ReadM (List (Node Span))} [Shrinks read]
    (hread : ∀ (trees : List (Node Unit)) (v : List Token),
      (∀ tree ∈ trees, Statement .grouping tree) → NotAhead GoesOn v →
      Follows bound read (Node.tokensAll trees) v (Are trees)) :
    ReadsBodies bound (blockOf? read) := by
  intro tree v htree hv
  unfold blockOf?
  refine follows_here_bind fun start => ?_
  rw [← List.append_nil (Node.tokensBody tree)]
  cases tree with
  | none =>
      refine Follows.bind (i := Shrinks.list inferInstance fun _ _ => inferInstance)
        (hread [] v nofun hv) (Nat.le_add_right _ _) ?_
      intro children hchildren
      cases List.map_eq_nil_iff.1 hchildren
      exact .pure rfl
  | some block =>
      obtain ⟨hstatements, hne⟩ := htree block rfl
      rw [Node.tokensBody, Node.tokens]
      refine Follows.bind (i := Shrinks.list inferInstance fun _ _ => inferInstance)
        (hread _ v hstatements hv) (Nat.le_add_right _ _) ?_
      intro children hchildren
      subst hchildren
      cases children with
      | nil =>
          -- a grouped block is not empty
          exact absurd rfl (hne trivial)
      | cons node rest =>
          refine follows_spanFrom_bind fun span => .pure ?_
          show some (Node.erase _) = _
          rw [Node.erase_block]

theorem statements_follows (bound : Nat) : ∀ (trees : List (Node Unit)) (v : List Token),
    (∀ tree ∈ trees, Statement .grouping tree) → NotAhead GoesOn v →
    Follows bound (statements bound) (Node.tokensAll trees) v (Are trees) := by
  induction bound with
  | zero =>
      intro trees v htrees _
      exact follows_exhausted (fun tree htree => (htrees tree htree).startsWith)
        fun t => StartsStatement.ne_end
  | succ bound ih =>
      intro trees v htrees hv
      unfold statements
      cases trees with
      | nil => exact Follows.bind_none (statement?_none (hv.mono fun t => .inr)) (.pure rfl)
      | cons tree rest =>
          rw [List.forall_mem_cons] at htrees
          rw [Node.tokensAll]
          refine Follows.bind_some (M := bound)
            (statement?_some (blockOf?_follows ih) htrees.1 ?_) ?_ ?_
          · exact notAhead_tokensAll (fun tree htree => (htrees.2 tree htree).startsWith)
              (fun t ht => ht.not_startsItem) (hv.mono fun t => .inl)
          · have hpos := htrees.1.startsWith.weight_pos fun t => StartsStatement.ne_end
            exact Nat.add_le_add_left hpos _
          · intro node hnode
            exact (ih rest v htrees.2 hv).map fun nodes hnodes => Are.cons hnode hnodes

theorem block?_follows (bound : Nat) : ReadsBodies bound (block? bound) :=
  blockOf?_follows (statements_follows bound)

/-! ## Environments -/

theorem follows_closeEnvironment_bind {name : String} {f : Unit → ReadM γ} [∀ b, Shrinks (f b)]
    (hf : Follows N (f ()) w v Q) :
    Follows N (closeEnvironment name >>= f) (closing name ++ w) v Q := by
  unfold closeEnvironment
  simp only [discard_eq, bind_assoc, pure_bind]
  refine follows_closingWord_bind ?_
  refine follows_openBrace_bind ?_
  refine follows_expect_bind (by decide) (t := .ordinary name) ?_ ?_
  · exact fits_ordinary_only.2 rfl
  · exact follows_closeBrace_bind hf

theorem follows_environment_some {name : String} {f : Option (String × Nat) → ReadM γ}
    (hshrinks : ∀ o, Shrinks (f o)) (hf : ∀ start, Follows N (f (some (name, start))) w v Q) :
    Follows (N + 1) (environment? >>= f) (opening name ++ w) v Q := by
  unfold environment?
  simp only [bind_assoc]
  refine follows_here_bind fun start => ?_
  have hname : Follows N (Grammar.bracedName >>= fun name => f (some (name, start)))
      (Token.bracedName name ++ w) v Q := follows_bracedName_bind (hf start)
  refine follows_word_true (f := fun found => (if found = true then _ else _) >>= f) ?_
  simpa using hname

theorem follows_environment_none {f : Option (String × Nat) → ReadM γ}
    (hshrinks : ∀ o, Shrinks (f o)) (hno : NotAhead (· = .word "begin") (w ++ v))
    (hf : Follows N (f none) w v Q) : Follows N (environment? >>= f) w v Q := by
  unfold environment?
  simp only [bind_assoc]
  refine follows_here_bind fun start => ?_
  refine follows_word_false (f := fun found => (if found = true then _ else _) >>= f) hno ?_
  simpa using hf

/-- Behind a section that is a block there is a precondition, or the end of the
sections. -/
theorem notAhead_afterBlock {block : Node Unit} {rest : List (Node Unit)}
    (hsections : ∀ tree ∈ rest, Section .grouping tree)
    (hapart : NoneAdjacent Node.IsBlock (block :: rest)) (hblock : block.IsBlock)
    (hv : NotAhead GoesOn v) : NotAhead GoesOn (Node.tokensAll rest ++ v) := by
  cases rest with
  | nil => exact hv
  | cons next rest =>
      rw [NoneAdjacent, List.isChain_cons_cons] at hapart
      cases hsections next List.mem_cons_self with
      | precondition hname _ =>
          have hmem : ∀ name ∈ preconditionWords, name ∈ blockEnds := by decide
          exact notAhead_cons.2 (not_goesOn (hmem _ hname))
      | block hnext =>
          cases hnext
          exact absurd ⟨hblock, trivial⟩ hapart.1

theorem sections_follows (bound : Nat) : ∀ (trees : List (Node Unit)) (v : List Token),
    (∀ tree ∈ trees, Section .grouping tree) → NoneAdjacent Node.IsBlock trees →
    NotAhead GoesOn v → NotAhead StartsSection v →
    Follows bound (sections bound) (Node.tokensAll trees) v (Are trees) := by
  induction bound with
  | zero =>
      intro trees v htrees _ _ _
      exact follows_exhausted (fun tree htree => (htrees tree htree).startsWith trivial)
        fun t => StartsSection.ne_end
  | succ bound ih =>
      intro trees v htrees hapart hv hsection
      have hblock := block?_follows (bound + 1)
      unfold sections
      cases trees with
      | nil =>
          refine Follows.bind_none ?_ (.pure rfl)
          refine orElse?_second (command?_none (hsection.mono fun t => .inr)) ?_
          exact (hblock none v nofun hv).mono (Nat.le_refl _) fun _ => Option.map_eq_none_iff.1
      | cons tree rest =>
          rw [List.forall_mem_cons] at htrees
          have hapart' : NoneAdjacent Node.IsBlock rest := (List.isChain_cons.1 hapart).2
          rw [Node.tokensAll]
          have hpos := (htrees.1.startsWith trivial).weight_pos fun t => StartsSection.ne_end
          refine Follows.bind_some (M := bound) ?_ (Nat.add_le_add_left hpos _)
            fun node hnode =>
              (ih rest v htrees.2 hapart' hv hsection).map fun nodes hnodes => Are.cons hnode hnodes
          cases htrees.1 with
          | precondition hname hwords =>
              -- its text ends where the next section starts
              refine orElse?_first
                ((command?_some hname hwords ?_).mono (Nat.le_succ _) fun _ => id)
              exact notAhead_tokensAll (fun tree htree => (htrees.2 tree htree).startsWith trivial)
                (fun t => StartsSection.not_startsItem) (hv.mono fun t => .inl)
          | block hmk =>
              -- the command that a block starts with is no precondition
              refine orElse?_second (command?_none ?_) ?_
              · refine (hmk.startsWith trivial).notAhead ?_
                rintro t ⟨name, hname, rfl⟩ ⟨_, hmem, ⟨⟩⟩
                have : ∀ name ∈ preconditionWords, name ∉ statementStarts := by decide
                exact this _ hmem hname
              · -- the block is maximal, so what is behind it does not go on with statements
                refine (hblock (some tree) _ ?_ ?_).mono (Nat.le_refl _) fun body hbody => ?_
                · rintro _ ⟨⟩
                  exact hmk
                · refine notAhead_afterBlock htrees.2 hapart ?_ hv
                  cases hmk
                  trivial
                · obtain ⟨node, rfl, hnode⟩ := Option.map_eq_some_iff.1 hbody
                  exact ⟨node, rfl, hnode⟩

theorem algorithmic_follows {bound start : Nat} {children : List (Node Unit)}
    (hchildren : ∀ tree ∈ children, Section .grouping tree)
    (hapart : NoneAdjacent Node.IsBlock children) :
    Follows bound (algorithmic bound start) (Node.tokensAll children ++ closing algorithmicName) v
      (Is (.algorithmic () children)) := by
  have hsection : NotAhead StartsSection (closing algorithmicName ++ v) := by
    refine notAhead_cons.2 ?_
    rintro (⟨_, hmem, ⟨⟩⟩ | ⟨_, hmem, ⟨⟩⟩)
    all_goals exact absurd hmem (by decide)
  unfold algorithmic
  refine Follows.bind (sections_follows bound children _ hchildren hapart ?_ hsection)
    (Nat.le_add_right _ _) ?_
  · exact notAhead_cons.2 (not_goesOn (by decide))
  intro nodes hnodes
  subst hnodes
  refine follows_spanFrom_bind fun span => ?_
  rw [← List.append_nil (closing _)]
  exact follows_closeEnvironment_bind (.pure Node.erase_algorithmic)

theorem caption?_some {bound : Nat} {text : Phrase Unit} (htext : Words .grouping text) :
    Follows (bound + 1) (caption? bound) (.word "caption" :: braced text.tokens) v
      (Found (Is (.caption () text))) := by
  unfold caption?
  refine follows_here_bind fun start => ?_
  refine follows_word_true ?_
  rw [← List.append_nil (braced _)]
  refine Follows.bind (bracedPhrase_follows htext) (Nat.le_add_right _ _) ?_
  intro read hread
  subst hread
  exact follows_spanFrom_bind fun span => .pure ⟨_, rfl, rfl⟩

theorem caption?_none {bound : Nat} (hno : NotAhead (· = .word "caption") v) :
    Follows N (caption? bound) [] v (· = none) := by
  unfold caption?
  refine follows_here_bind fun start => ?_
  exact follows_word_false hno (.pure rfl)

theorem parts_follows (bound : Nat) : ∀ (trees : List (Node Unit)) (v : List Token),
    (∀ tree ∈ trees, Part .grouping tree) → NotAhead StartsPart v →
    Follows bound (parts bound) (Node.tokensAll trees) v (Are trees) := by
  induction bound with
  | zero =>
      intro trees v htrees _
      exact follows_exhausted (fun tree htree => (htrees tree htree).startsWith)
        fun t => StartsPart.ne_end
  | succ bound ih =>
      intro trees v htrees hv
      unfold parts
      cases trees with
      | nil =>
          refine follows_environment_none
            (.option (.bind_option inferInstance inferInstance) inferInstance)
            (hv.mono fun t => .inr) ?_
          exact Follows.bind_none (caption?_none (hv.mono fun t => .inl)) (.pure rfl)
      | cons tree rest =>
          rw [List.forall_mem_cons] at htrees
          rw [Node.tokensAll]
          cases htrees.1 with
          | caption hwords =>
              refine follows_environment_none
                (.option (.bind_option inferInstance inferInstance) inferInstance)
                (notAhead_cons.2 (by decide)) ?_
              refine Follows.bind_some (caption?_some hwords) (M := bound) ?_ fun node hnode =>
                (ih rest v htrees.2 hv).map fun nodes hnodes => Are.cons hnode hnodes
              have hpos := htrees.1.startsWith.weight_pos fun t => StartsPart.ne_end
              exact Nat.add_le_add_left hpos _
          | algorithmic halgorithmic =>
              obtain ⟨hchildren, hapart⟩ := halgorithmic
              rw [Node.tokens, List.append_assoc]
              refine follows_environment_some
                (.option (.bind_option inferInstance inferInstance) inferInstance) fun start => ?_
              simp only [if_pos]
              refine Follows.bind (algorithmic_follows hchildren (hapart trivial))
                (Nat.le_add_right _ _) fun node hnode => ?_
              exact (ih rest v htrees.2 hv).map fun nodes hnodes => Are.cons hnode hnodes

theorem algorithm_follows {bound start : Nat} {children : List (Node Unit)}
    (hchildren : ∀ tree ∈ children, Part .grouping tree) :
    Follows bound (algorithm bound start) (Node.tokensAll children ++ closing algorithmName) v
      (Is (.algorithm () children)) := by
  unfold algorithm
  refine Follows.bind (parts_follows bound children _ hchildren ?_) (Nat.le_add_right _ _) ?_
  · refine notAhead_cons.2 ?_
    rintro (hcaption | hbegin)
    · exact absurd hcaption (by decide)
    · exact absurd hbegin (by decide)
  intro nodes hnodes
  subst hnodes
  refine follows_spanFrom_bind fun span => ?_
  rw [← List.append_nil (closing _)]
  exact follows_closeEnvironment_bind (.pure Node.erase_algorithm)

theorem environments_follows (bound : Nat) : ∀ (trees : List (Node Unit)) (v : List Token),
    (∀ tree ∈ trees, Environment .grouping tree) → NotAhead (· = .word "begin") v →
    Follows bound (environments bound) (Node.tokensAll trees) v (Are trees) := by
  induction bound with
  | zero =>
      intro trees v htrees _
      refine follows_exhausted (fun tree htree => (htrees tree htree).startsWith) ?_
      intro t ht
      subst ht
      exact nofun
  | succ bound ih =>
      intro trees v htrees hv
      unfold environments
      cases trees with
      | nil =>
          exact follows_environment_none
            (.option inferInstance (.pair fun name start => inferInstance)) hv (.pure rfl)
      | cons tree rest =>
          rw [List.forall_mem_cons] at htrees
          rw [Node.tokensAll]
          cases htrees.1 with
          | algorithm hchildren =>
              rw [Node.tokens, List.append_assoc]
              refine follows_environment_some
                (.option inferInstance (.pair fun name start => inferInstance)) fun start => ?_
              simp only [if_pos]
              refine Follows.bind (algorithm_follows hchildren) (Nat.le_add_right _ _)
                fun node hnode => ?_
              exact (ih rest v htrees.2 hv).map fun nodes hnodes => Are.cons hnode hnodes
          | algorithmic halgorithmic =>
              obtain ⟨hchildren, hapart⟩ := halgorithmic
              rw [Node.tokens, List.append_assoc]
              refine follows_environment_some
                (.option inferInstance (.pair fun name start => inferInstance)) fun start => ?_
              have hne : algorithmicName ≠ algorithmName := by decide
              simp only [if_pos, if_neg hne]
              refine Follows.bind (algorithmic_follows hchildren (hapart trivial))
                (Nat.le_add_right _ _) fun node hnode => ?_
              exact (ih rest v htrees.2 hv).map fun nodes hnodes => Are.cons hnode hnodes

/-- A document is read, the end of the source being seen but not consumed. -/
theorem document_follows {bound : Nat} {tree : Node Unit} (h : Document .grouping tree) :
    ∃ w, tree.tokens = w ++ [.endOfSource] ∧
      Follows bound (document bound) w [.endOfSource] (Is tree) := by
  obtain ⟨henvironments⟩ := h
  rename_i children
  refine ⟨Node.tokensAll children, rfl, ?_⟩
  unfold document
  simp only [discard_eq, bind_assoc, pure_bind]
  rw [← List.append_nil (Node.tokensAll children)]
  refine Follows.bind (environments_follows bound children _ henvironments ?_)
    (Nat.le_add_right _ _) ?_
  · exact notAhead_cons.2 nofun
  intro nodes hnodes
  subst hnodes
  rw [← List.append_nil []]
  refine Follows.bind .expect_end (Nat.le_add_right _ _) fun _ _ => ?_
  exact follows_spanFrom_bind fun span => .pure Node.erase_root

end Grammar

end AlgoBox
