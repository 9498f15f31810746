import AlgoBox.Proofs.Erasure
import AlgoBox.Proofs.Nesting
import AlgoBox.Proofs.Outcome

/-!
# Soundness of the productions

Every production gives derivation trees of the tokens that it consumes, and
finds fault with no symbol too late. There is one lemma for each production, put
together in the order in which the production reads.

Only the names of environments are checked behind the place they stand in, so
the tokens that are not well named are what may be amiss.
-/

namespace AlgoBox

open AlgoBox.Symbol

namespace Grammar

open Reader Token

variable {β γ : Type} {L : List Token → β → Prop} {M : List Token → γ → Prop}
  {amiss : List Token → Prop}

/-! ## Rules for what the productions begin with -/

theorem sound_here_bind {f : Nat → ReadM γ} (hf : ∀ start, Sound (f start) M amiss) :
    Sound (here >>= f) M amiss := by
  unfold here
  simp only [bind_assoc, pure_bind]
  exact .get_bind fun r => hf _

theorem sound_spanFrom_bind {start : Nat} {f : Span → ReadM γ}
    (hf : ∀ span, Sound (f span) M amiss) : Sound (spanFrom start >>= f) M amiss := by
  unfold spanFrom
  simp only [bind_assoc, pure_bind]
  exact .get_bind fun r => hf _

theorem sound_wordOf_bind {texts : List String} {f : Option String → ReadM γ}
    (hnone : Sound (f none) M amiss)
    (hsome : ∀ text ∈ texts, Sound (f (some text)) (fun v c => M (.word text :: v) c)
      (fun v => amiss (.word text :: v))) : Sound (wordOf? texts >>= f) M amiss := by
  refine (Sound.accept (.oneOf texts) (by decide)).of_fine.bind ?_
  intro w found hw
  cases found with
  | none =>
      cases hw
      exact hnone
  | some text =>
      obtain ⟨t, rfl, hfits, htext⟩ := hw
      obtain ⟨text', hmem, rfl⟩ := fits_word_oneOf.1 hfits
      cases htext
      exact hsome _ hmem

theorem sound_word_bind {text : String} {f : Bool → ReadM γ} (hfalse : Sound (f false) M amiss)
    (htrue : Sound (f true) (fun v c => M (.word text :: v) c)
      (fun v => amiss (.word text :: v))) : Sound (word? text >>= f) M amiss := by
  unfold word?
  simp only [bind_assoc, pure_bind]
  refine (Sound.accept (.only text) (by decide)).of_fine.bind ?_
  intro w found hw
  cases found with
  | none =>
      cases hw
      exact hfalse
  | some text =>
      obtain ⟨t, rfl, hfits, -⟩ := hw
      cases fits_word_only.1 hfits
      exact htrue

/-- A rule for each token that has to be here. -/
theorem sound_expect_bind {t : Token} {kind : Symbol.Kind} {wanted : Wanted}
    {f : String → ReadM γ} (hkind : kind ≠ .endOfSource)
    (honly : ∀ u : Token, u.fits kind wanted = true ↔ u = t)
    (hf : Sound (f (t.text.getD "")) (fun v c => M (t :: v) c) (fun v => amiss (t :: v))) :
    Sound (expect kind wanted >>= f) M amiss := by
  refine (Sound.expect wanted hkind ⟨t, (honly t).2 rfl⟩).of_fine.bind ?_
  intro w text h
  obtain ⟨u, rfl, hfits, rfl⟩ := h
  cases (honly u).1 hfits
  exact hf

theorem sound_closingWord_bind {text : String} {f : Unit → ReadM γ}
    (hf : Sound (f ()) (fun v c => M (.word text :: v) c) (fun v => amiss (.word text :: v))) :
    Sound (closingWord text >>= f) M amiss := by
  unfold closingWord
  simp only [discard_eq, bind_assoc, pure_bind]
  exact sound_expect_bind (by decide) (fun _ => fits_word_only) hf

theorem sound_openBrace_bind {f : Unit → ReadM γ}
    (hf : Sound (f ()) (fun v c => M (.openBrace :: v) c) (fun v => amiss (.openBrace :: v))) :
    Sound (openBrace >>= f) M amiss := by
  unfold openBrace
  simp only [discard_eq, bind_assoc, pure_bind]
  exact sound_expect_bind (by decide) (fun _ => fits_openBrace) hf

theorem sound_closeBrace_bind {f : Unit → ReadM γ}
    (hf : Sound (f ()) (fun v c => M (.closeBrace :: v) c) (fun v => amiss (.closeBrace :: v))) :
    Sound (closeBrace >>= f) M amiss := by
  unfold closeBrace
  simp only [discard_eq, bind_assoc, pure_bind]
  exact sound_expect_bind (by decide) (fun _ => fits_closeBrace) hf

theorem sound_bracedName_bind {f : String → ReadM γ}
    (hf : ∀ name, Sound (f name) (fun v c => M (Token.bracedName name ++ v) c)
      (fun v => amiss (Token.bracedName name ++ v))) :
    Sound (Grammar.bracedName >>= f) M amiss := by
  unfold Grammar.bracedName
  simp only [bind_assoc, pure_bind]
  refine sound_openBrace_bind ?_
  refine (Sound.expect .any (by decide) ⟨.ordinary "", rfl⟩).of_fine.bind ?_
  intro w text h
  obtain ⟨u, rfl, hfits, rfl⟩ := h
  obtain ⟨name, rfl⟩ := fits_ordinary_any.1 hfits
  exact sound_closeBrace_bind (hf name)

/-! ## Phrases -/

/-- A tree with a property is written with the tokens. -/
def Derives (P : Node Unit → Prop) (w : List Token) (node : Node Span) : Prop :=
  P node.erase ∧ node.erase.tokens = w

/-- Trees with a property are written with the tokens. -/
def DerivesAll (P : Node Unit → Prop) (w : List Token) (nodes : List (Node Span)) : Prop :=
  (∀ node ∈ nodes, P node.erase) ∧ Node.tokensAll (nodes.map Node.erase) = w

/-- A phrase is written with the tokens. -/
def DerivesWords (w : List Token) (words : Phrase Span) : Prop :=
  Words .any words.erase ∧ words.erase.tokens = w

/-- A body is written with the tokens. -/
def DerivesBody (w : List Token) (body : Option (Node Span)) : Prop :=
  (∀ node ∈ body, Block .any node.erase) ∧ Node.tokensBody (body.map Node.erase) = w

/-- Arms are written with the tokens, the first one behind a given keyword. -/
def DerivesArms (keyword : String) (w : List Token) (arms : List (Branch Span)) : Prop :=
  (∀ arm ∈ arms, Arm .any arm.erase) ∧ Branch.tokensAll keyword (arms.map Branch.erase) = w

/-- What a production in question form gives: nothing on no tokens, or a result
that is in the relation. -/
def Optionally (L : List Token → β → Prop) (w : List Token) : Option β → Prop
  | none => w = []
  | some b => L w b

theorem DerivesAll.cons {P : Node Unit → Prop} {w v : List Token} {node : Node Span}
    {nodes : List (Node Span)} (h : Derives P w node) (hs : DerivesAll P v nodes) :
    DerivesAll P (w ++ v) (node :: nodes) := by
  refine ⟨?_, ?_⟩
  · intro x hx
    rcases List.mem_cons.1 hx with rfl | hx
    · exact h.1
    · exact hs.1 x hx
  · rw [List.map_cons, Node.tokensAll, h.2, hs.2]

theorem DerivesAll.nil {P : Node Unit → Prop} : DerivesAll P [] [] :=
  ⟨fun _ hx => absurd hx List.not_mem_nil, rfl⟩

theorem fits_leafForms {t : Token} {form : Symbol.Kind × Wanted × (String → Leaf)}
    (hform : form ∈ leafForms) (hfits : t.fits form.1 form.2.1 = true) :
    (form.2.2 (t.text.getD "")).IsKnown ∧ (form.2.2 (t.text.getD "")).token = t := by
  simp only [leafForms, List.mem_cons, List.not_mem_nil, or_false] at hform
  rcases hform with rfl | rfl | rfl | rfl | rfl | rfl
  · obtain ⟨content, rfl⟩ := fits_ordinary_any.1 hfits
    exact ⟨trivial, rfl⟩
  · obtain ⟨body, rfl⟩ := fits_math_any.1 hfits
    exact ⟨trivial, rfl⟩
  · obtain ⟨escape, rfl⟩ := fits_special_any.1 hfits
    exact ⟨trivial, rfl⟩
  all_goals
    obtain ⟨name, hmem, rfl⟩ := fits_word_oneOf.1 hfits
    exact ⟨hmem, rfl⟩

/-- A leaf is written with the one token. -/
def DerivesLeaf (w : List Token) (leaf : Leaf) : Prop := leaf.IsKnown ∧ w = [leaf.token]

theorem leafOf?_sound {forms : List (Symbol.Kind × Wanted × (String → Leaf))}
    (hforms : ∀ form ∈ forms, form ∈ leafForms) :
    Sound (leafOf? forms) (Optionally DerivesLeaf) amiss := by
  induction forms with
  | nil => exact .pure rfl
  | cons form rest ih =>
      obtain ⟨kind, wanted, make⟩ := form
      have hform := hforms _ List.mem_cons_self
      have hkind : kind ≠ .endOfSource := by
        intro h
        subst h
        simp [leafForms] at hform
      unfold leafOf?
      refine (Sound.accept wanted hkind).of_fine.bind ?_
      intro w found hw
      cases found with
      | none =>
          cases hw
          exact ih fun x hx => hforms x (List.mem_cons_of_mem _ hx)
      | some text =>
          obtain ⟨t, rfl, hfits, rfl⟩ := hw
          obtain ⟨hknown, htoken⟩ := fits_leafForms hform hfits
          exact .pure ⟨hknown, by rw [htoken]; rfl⟩

theorem leaf?_sound : Sound leaf? (Optionally (Derives (Item .any))) amiss := by
  unfold leaf?
  refine sound_here_bind fun start => ?_
  refine (leafOf?_sound fun _ => id).bind ?_
  intro w found hw
  cases found with
  | none =>
      cases hw
      exact .pure rfl
  | some leaf =>
      obtain ⟨hknown, rfl⟩ := hw
      exact sound_spanFrom_bind fun span => .pure ⟨.leaf hknown trivial, rfl⟩

theorem sound_acceptBrace_bind {f : Option String → ReadM γ} (hnone : Sound (f none) M amiss)
    (hsome : ∀ text, Sound (f (some text)) (fun v c => M (.openBrace :: v) c)
      (fun v => amiss (.openBrace :: v))) :
    Sound (accept .openBrace .any >>= f) M amiss := by
  refine (Sound.accept .any (by decide)).of_fine.bind ?_
  intro w found hw
  cases found with
  | none =>
      cases hw
      exact hnone
  | some text =>
      obtain ⟨t, rfl, hfits, -⟩ := hw
      cases fits_openBrace.1 hfits
      exact hsome text

theorem items_sound (bound : Nat) :
    ∀ {amiss}, Sound (items bound) (DerivesAll (Item .any)) amiss := by
  induction bound with
  | zero => intro amiss; exact .pure .nil
  | succ bound ih =>
      intro amiss
      unfold items
      refine leaf?_sound.bind ?_
      intro w found hw
      cases found with
      | none =>
          cases hw
          -- no leaf is ahead: a group of items is, or the end of the phrase
          refine sound_acceptBrace_bind (.pure .nil) fun _ => ?_
          refine sound_here_bind fun start => ?_
          refine ih.bind fun u inner hinner => ?_
          refine sound_spanFrom_bind fun span => ?_
          refine sound_closeBrace_bind ?_
          refine ih.bind fun v rest hrest => .pure ?_
          have hgroup : Derives (Item .any) (braced u) (.text (.mk span inner)) := by
            refine ⟨?_, ?_⟩
            · rw [Node.erase_text, Phrase.erase_mk]
              exact .group (by simpa using hinner.1) (fun h => h.elim)
            · rw [Node.erase_text, Phrase.erase_mk, Node.tokens, Phrase.tokens, hinner.2]
          simpa [braced] using DerivesAll.cons hgroup hrest
      | some leaf =>
          refine ih.bind fun v rest hrest => .pure ?_
          simpa using DerivesAll.cons hw hrest

theorem phrase_sound (bound : Nat) : Sound (phrase bound) DerivesWords amiss := by
  unfold phrase
  refine sound_here_bind fun start => ?_
  refine (items_sound bound).bind fun w inner hinner => ?_
  refine sound_spanFrom_bind fun span => .pure ⟨?_, ?_⟩
  · rw [Phrase.erase_mk]
    exact .mk (by simpa using hinner.1) (fun h => h.elim)
  · rw [Phrase.erase_mk, Phrase.tokens, hinner.2, List.append_nil]

/-- The phrase between braces is written with the tokens. -/
def DerivesBraced (w : List Token) (words : Phrase Span) : Prop :=
  Words .any words.erase ∧ braced words.erase.tokens = w

theorem bracedPhrase_sound (bound : Nat) : Sound (bracedPhrase bound) DerivesBraced amiss := by
  unfold bracedPhrase
  refine sound_openBrace_bind ?_
  refine (phrase_sound bound).bind ?_
  intro w words h
  obtain ⟨hwords, rfl⟩ := h
  exact sound_closeBrace_bind (.pure ⟨hwords, rfl⟩)

/-! ## Statements -/

/-- Commands of any vocabulary; what they are depends on the vocabulary. -/
theorem command?_sound {P : Node Unit → Prop} {words : List String} (bound : Nat)
    (hP : ∀ name ∈ words, ∀ text : Phrase Unit, Words .any text → P (.command () name text)) :
    Sound (command? words bound) (Optionally (Derives P)) amiss := by
  unfold command?
  refine sound_here_bind fun start => ?_
  refine sound_wordOf_bind (.pure rfl) fun name hname => ?_
  refine (phrase_sound bound).bind ?_
  intro w text h
  obtain ⟨htext, rfl⟩ := h
  refine sound_spanFrom_bind fun span => .pure ⟨?_, ?_⟩
  · exact hP name hname _ htext
  · simp [Node.tokens]

theorem comment?_sound (bound : Nat) :
    Sound (comment? bound) (Optionally (Derives (Statement .any))) amiss := by
  unfold comment?
  refine sound_here_bind fun start => ?_
  refine sound_word_bind (.pure rfl) ?_
  refine (bracedPhrase_sound bound).bind ?_
  intro w text h
  obtain ⟨htext, rfl⟩ := h
  refine sound_spanFrom_bind fun span => .pure ⟨.comment htext, ?_⟩
  simp [Node.tokens]

theorem call?_sound (bound : Nat) :
    Sound (call? bound) (Optionally (Derives (Statement .any))) amiss := by
  unfold call?
  refine sound_here_bind fun start => ?_
  refine sound_word_bind (.pure rfl) ?_
  refine sound_bracedName_bind fun name => ?_
  refine (bracedPhrase_sound bound).bind ?_
  intro w args h
  obtain ⟨hargs, rfl⟩ := h
  refine sound_spanFrom_bind fun span => .pure ⟨.call trivial hargs, ?_⟩
  simp [Node.tokens]

section Bodies

variable {body : ReadM (Option (Node Span))}

/-- An arm is written with the tokens, its keyword left out. -/
def DerivesArm (w : List Token) (arm : Branch Span) : Prop :=
  Arm .any arm.erase ∧ arm.erase.tokens = w

theorem arm_sound (bound start : Nat) (hbody : Sound body DerivesBody Fine) :
    Sound (arm bound body start) DerivesArm amiss := by
  unfold arm
  refine (bracedPhrase_sound bound).bind ?_
  intro w cond h
  obtain ⟨hcond, rfl⟩ := h
  refine hbody.of_fine.bind ?_
  intro w inner h
  obtain ⟨hinner, rfl⟩ := h
  refine sound_spanFrom_bind fun span => .pure ⟨?_, ?_⟩
  · rw [Branch.erase_mk]
    exact .mk hcond (by simpa using hinner)
  · simp [Branch.tokens]

theorem DerivesArms.cons {keyword : String} {w v : List Token} {arm : Branch Span}
    {arms : List (Branch Span)} (h : DerivesArm w arm) (hs : DerivesArms "ELIF" v arms) :
    DerivesArms keyword (.word keyword :: (w ++ v)) (arm :: arms) := by
  refine ⟨?_, ?_⟩
  · intro x hx
    rcases List.mem_cons.1 hx with rfl | hx
    · exact h.1
    · exact hs.1 x hx
  · rw [List.map_cons, Branch.tokensAll, h.2, hs.2]

theorem laterArms_sound {read : Nat → ReadM (Branch Span)} (bound : Nat)
    (hread : ∀ start, Sound (read start) DerivesArm Fine) :
    ∀ {amiss}, Sound (laterArms read bound) (DerivesArms "ELIF") amiss := by
  have hnil : DerivesArms "ELIF" [] [] := ⟨fun _ hx => absurd hx List.not_mem_nil, rfl⟩
  induction bound with
  | zero => intro amiss; exact .pure hnil
  | succ bound ih =>
      intro amiss
      unfold laterArms
      refine sound_here_bind fun start => ?_
      refine sound_word_bind (.pure hnil) ?_
      refine (hread start).of_fine.bind fun w first hfirst => ?_
      refine ih.bind fun v rest hrest => .pure ?_
      simpa using DerivesArms.cons hfirst hrest

theorem conditional?_sound (bound : Nat) (hbody : Sound body DerivesBody Fine) :
    Sound (conditional? bound body) (Optionally (Derives (Statement .any))) amiss := by
  unfold conditional?
  refine sound_here_bind fun start => ?_
  refine sound_word_bind (.pure rfl) ?_
  refine (arm_sound bound start hbody).bind fun u first hfirst => ?_
  refine (laterArms_sound bound fun s => arm_sound bound s hbody).bind fun v later hlater => ?_
  have harms : DerivesArms "IF" (.word "IF" :: (u ++ v)) (first :: later) :=
    .cons hfirst hlater
  -- what stands behind the last body, whether or not there is an ELSE
  have close : ∀ (hasElse : Bool) {w : List Token} {elseBody : Option (Node Span)},
      DerivesBody w elseBody → (hasElse = false → elseBody = none) → ∀ span : Span,
      Derives (Statement .any) (.word "IF" :: (u ++ v) ++ ((if hasElse then [.word "ELSE"] else [])
          ++ (w ++ [.word "ENDIF"])))
        (.conditional span (first :: later) hasElse elseBody) := by
    intro hasElse w elseBody h hnone span
    obtain ⟨helse, rfl⟩ := h
    refine ⟨?_, ?_⟩
    · rw [Node.erase_conditional]
      refine .conditional (by simp) ?_ (by simpa using helse) (by simpa using hnone)
      intro arm harm
      obtain ⟨a, ha, rfl⟩ := List.mem_map.1 harm
      exact harms.1 a ha
    · rw [Node.erase_conditional, Node.tokens, harms.2]
  refine sound_word_bind ?_ ?_
  · show Sound (Pure.pure none >>= _) _ _
    rw [pure_bind]
    refine sound_closingWord_bind ?_
    refine sound_spanFrom_bind fun span => .pure ?_
    have hnone : DerivesBody [] none := ⟨by simp, rfl⟩
    simpa [Optionally] using close false hnone (fun _ => rfl) span
  · refine hbody.of_fine.bind fun w elseBody helse => ?_
    refine sound_closingWord_bind ?_
    refine sound_spanFrom_bind fun span => .pure ?_
    simpa [Optionally] using close true helse (by simp) span

theorem loop?_sound (bound : Nat) (hbody : Sound body DerivesBody Fine) :
    Sound (loop? bound body) (Optionally (Derives (Statement .any))) amiss := by
  unfold loop?
  refine sound_here_bind fun start => ?_
  refine sound_wordOf_bind (.pure rfl) fun keyword hkeyword => ?_
  refine (bracedPhrase_sound bound).bind ?_
  intro w cond h
  obtain ⟨hcond, rfl⟩ := h
  refine hbody.of_fine.bind ?_
  intro w inner h
  obtain ⟨hinner, rfl⟩ := h
  refine sound_closingWord_bind ?_
  refine sound_spanFrom_bind fun span => .pure ⟨?_, ?_⟩
  · rw [Node.erase_loop]
    exact .loop hkeyword hcond (by simpa using hinner)
  · simp [Node.tokens]

theorem function?_sound (bound : Nat) (hbody : Sound body DerivesBody Fine) :
    Sound (function? bound body) (Optionally (Derives (Statement .any))) amiss := by
  unfold function?
  refine sound_here_bind fun start => ?_
  refine sound_wordOf_bind (.pure rfl) fun kind hkind => ?_
  refine sound_bracedName_bind fun name => ?_
  refine (bracedPhrase_sound bound).bind ?_
  intro w params h
  obtain ⟨hparams, rfl⟩ := h
  refine hbody.of_fine.bind ?_
  intro w inner h
  obtain ⟨hinner, rfl⟩ := h
  refine sound_closingWord_bind ?_
  refine sound_spanFrom_bind fun span => .pure ⟨?_, ?_⟩
  · rw [Node.erase_function]
    exact .function hkind trivial hparams (by simpa using hinner)
  · simp [Node.tokens]

theorem orElse?_sound {P : Node Unit → Prop} {first second : ReadM (Option (Node Span))}
    (hfirst : Sound first (Optionally (Derives P)) amiss)
    (hsecond : Sound second (Optionally (Derives P)) amiss) :
    Sound (orElse? first second) (Optionally (Derives P)) amiss := by
  unfold orElse?
  refine hfirst.bind ?_
  intro w found hw
  cases found with
  | none =>
      cases hw
      exact hsecond
  | some node =>
      exact .pure (by rw [List.append_nil]; exact hw)

theorem statement?_sound (bound : Nat) (hbody : Sound body DerivesBody Fine) :
    Sound (statement? bound body) (Optionally (Derives (Statement .any))) amiss :=
  orElse?_sound (conditional?_sound bound hbody) <|
  orElse?_sound (loop?_sound bound hbody) <|
  orElse?_sound (function?_sound bound hbody) <|
  orElse?_sound (command?_sound bound fun _ hname _ htext => .command hname htext) <|
  orElse?_sound (comment?_sound bound) (call?_sound bound)

end Bodies

/-- A block, unless it would be empty, is written with the tokens. -/
theorem blockOf?_sound {read : ReadM (List (Node Span))}
    (hread : Sound read (DerivesAll (Statement .any)) amiss) :
    Sound (blockOf? read) DerivesBody amiss := by
  unfold blockOf?
  refine sound_here_bind fun start => ?_
  refine hread.bind ?_
  intro w children h
  obtain ⟨hchildren, rfl⟩ := h
  cases children with
  | nil =>
      -- a run without statements is no block
      exact .pure ⟨by simp, rfl⟩
  | cons node rest =>
      refine sound_spanFrom_bind fun span => .pure ⟨?_, ?_⟩
      · rintro block ⟨⟩
        rw [Node.erase_block]
        exact .mk (by simpa using hchildren) (fun h => h.elim)
      · simp [Node.tokensBody, Node.tokens]

theorem statements_sound (bound : Nat) :
    ∀ {amiss}, Sound (statements bound) (DerivesAll (Statement .any)) amiss := by
  induction bound with
  | zero => intro amiss; exact .pure .nil
  | succ bound ih =>
      intro amiss
      unfold statements
      refine (statement?_sound bound (blockOf?_sound ih)).bind ?_
      intro w found hw
      cases found with
      | none =>
          cases hw
          exact .pure .nil
      | some node =>
          refine ih.bind fun v rest hrest => .pure ?_
          simpa using DerivesAll.cons hw hrest

theorem block?_sound (bound : Nat) : Sound (block? bound) DerivesBody amiss :=
  blockOf?_sound (statements_sound bound)

/-! ## Environments -/

/-- What is amiss with tokens inside some open environments: one of those that
they open has a name that is not allowed. -/
def Misnamed (outer : List String) (w : List Token) : Prop := openEnvironments outer w = none

theorem sound_closeEnvironment_bind {name : String} {f : Unit → ReadM γ}
    (hf : Sound (f ()) (fun v c => M (closing name ++ v) c) (fun v => amiss (closing name ++ v))) :
    Sound (closeEnvironment name >>= f) M amiss := by
  unfold closeEnvironment
  simp only [discard_eq, bind_assoc, pure_bind]
  refine sound_closingWord_bind ?_
  refine sound_openBrace_bind ?_
  refine sound_expect_bind (by decide) (fun _ => fits_ordinary_only) ?_
  exact sound_closeBrace_bind hf

theorem bracedName_sound :
    Sound Grammar.bracedName (fun w name => w = Token.bracedName name) amiss := by
  have h : Sound (Grammar.bracedName >>= Pure.pure)
      (fun w name => w = Token.bracedName name) amiss :=
    sound_bracedName_bind fun name => .pure (List.append_nil _)
  rwa [bind_pure] at h

/-- Tokens that begin the opening of an environment behind its command begin
what stands inside `outer`, or they go as far as a name that is not allowed. -/
theorem begins_opening {outer : List String} {w more : List Token} {name : String}
    (hopen : ∀ name ∈ allowedNames outer, Begins M (opening name))
    (hallowed : allowedNames outer ≠ []) (h : w ++ more = Token.bracedName name) :
    Begins M (.word "begin" :: w) ∨ Misnamed outer (.word "begin" :: w) := by
  have begins : ∀ name ∈ allowedNames outer, ∀ {u v}, u ++ v = Token.bracedName name →
      Begins M (.word "begin" :: u) := by
    intro name hname u v huv
    obtain ⟨more, c, hc⟩ := hopen name hname
    refine ⟨v ++ more, c, ?_⟩
    rwa [List.cons_append, ← List.append_assoc, huv]
  by_cases hname : name ∈ allowedNames outer
  · exact .inl (begins name hname h)
  · obtain ⟨other, hother⟩ := List.exists_mem_of_ne_nil _ hallowed
    have misnamed : ∀ rest,
        Misnamed outer (.word "begin" :: .openBrace :: .ordinary name :: rest) := by
      intro rest
      unfold Misnamed
      rw [openEnvironments_begin, if_neg hname]
    -- up to the brace any name may follow; behind the name it is too late
    rcases w with _ | ⟨t, _ | ⟨u, w⟩⟩
    · exact .inl (begins other hother (v := Token.bracedName other) rfl)
    · cases h
      exact .inl (begins other hother (v := [.ordinary other, .closeBrace]) rfl)
    · obtain ⟨rfl, rfl, -⟩ : t = .openBrace ∧ u = .ordinary name ∧ w ++ more = [.closeBrace] := by
        simpa [Token.bracedName] using h
      exact .inr (misnamed w)

/-- A bind behind the opening of an environment, with its start read off the
reader. -/
theorem environment?_bind_apply (f : Option (String × Nat) → ReadM γ) (r : Reader) :
    (environment? >>= f) r = (word? "begin" >>= fun found =>
      if found then Grammar.bracedName >>= fun name => f (some (name, r.current.start))
      else f none : ReadM γ) r := by
  unfold environment? here
  simp only [bind_assoc, pure_bind]
  refine congrFun (congrArg (word? "begin" >>= ·) (funext fun found => ?_)) r
  cases found <;> simp

/-- The name of an environment inside `outer` and what follows it, read behind the command that
opens the environment. A name that is not allowed is refused where the environment begins. -/
theorem ends_behind_begin {outer : List String} {f : Option (String × Nat) → ReadM γ}
    {ending : Symbol.Ending} {s : Symbol} {rest : List Symbol} {r : Reader}
    (hallowed : allowedNames outer ≠ []) (hlive : ∃ w c, M w c)
    (hsome : ∀ name ∈ allowedNames outer, ∀ start, Sound (f (some (name, start)))
      (fun v c => M (opening name ++ v) c) (Misnamed (name :: outer)))
    (hrefused : ∀ name ∉ allowedNames outer, ∃ cause : Fault.Cause, cause.Misnames name ∧
      ∀ start, f (some (name, start)) = throw ⟨cause, start⟩)
    (hs : s.token = .word "begin") (hr : Ahead ending r rest) :
    Ends ending (s :: rest) M (Misnamed outer)
      ((Grammar.bracedName >>= fun name => f (some (name, s.start)) : ReadM γ) r) := by
  have begins : ∀ {ws : List Symbol},
      Begins (fun w name => w = Token.bracedName name) (ws.map token) ∨ Fine (ws.map token) →
      Begins M ((s :: ws).map token) ∨ Misnamed outer ((s :: ws).map token) := by
    rintro ws (⟨more, name, h⟩ | h)
    · rw [List.map_cons, hs]
      exact begins_opening (fun name hname => (hsome name hname 0).live) hallowed h
    · exact h.elim
  have hbraced : Sound Grammar.bracedName (fun w name => w = Token.bracedName name) Fine :=
    bracedName_sound
  have hname := hbraced.ends hr
  show Ends _ _ _ _ (EStateM.bind Grammar.bracedName _ r)
  unfold EStateM.bind
  cases hend : Grammar.bracedName r with
  | error fault r' =>
      rw [hend] at hname
      cases hname with
      | unrecognized he hw => exact .unrecognized he (begins hw)
      | unexpected ws hc hss hr' hw =>
          exact .unexpected (s :: ws) hc (by rw [hss]; rfl) hr' (begins hw)
      | misnamed _ _ _ _ _ _ hbad => exact (hbad []).elim
  | ok name r' =>
      rw [hend] at hname
      cases hname with
      | reads ws hss hr' hws =>
          have htokens : (s :: ws).map token = opening name := by
            rw [List.map_cons, hs, hws]
            rfl
          by_cases hmem : name ∈ allowedNames outer
          · rw [hss, ← List.cons_append]
            refine Ends.behind rfl ?_
            rw [htokens]
            refine ((hsome name hmem s.start).ends hr').mono (fun _ _ => id) fun v hv => ?_
            unfold Misnamed
            rwa [openEnvironments_opening hmem]
          · -- the fault goes back to where the environment begins
            obtain ⟨cause, hcause, hthrow⟩ := hrefused name hmem
            show Ends _ _ _ _ (f (some (name, s.start)) r')
            rw [hthrow]
            refine .misnamed [] hcause (by rw [hss]; rfl) htokens hr' hlive fun more => ?_
            unfold Misnamed
            rw [List.map_nil, List.nil_append, openEnvironments_begin, if_neg hmem]

/-- What follows the opening of an environment inside `outer`. A name that is
not allowed has to be refused where the environment begins. -/
theorem sound_environment_bind {outer : List String} {f : Option (String × Nat) → ReadM γ}
    (hallowed : allowedNames outer ≠ [])
    (hnone : Sound (f none) M (Misnamed outer))
    (hsome : ∀ name ∈ allowedNames outer, ∀ start, Sound (f (some (name, start)))
      (fun v c => M (opening name ++ v) c) (Misnamed (name :: outer)))
    (hrefused : ∀ name ∉ allowedNames outer, ∃ cause : Fault.Cause, cause.Misnames name ∧
      ∀ start, f (some (name, start)) = throw ⟨cause, start⟩) :
    Sound (environment? >>= f) M (Misnamed outer) where
  live := hnone.live
  ends := by
    intro ending r ss hr
    obtain ⟨s, rest, rfl⟩ := hr.exists_cons
    rw [environment?_bind_apply, hr.current_eq]
    unfold word?
    simp only [bind_assoc, pure_bind]
    show Ends _ _ _ _ (EStateM.bind _ _ r)
    unfold EStateM.bind
    rcases hr.accept (.only "begin") (show Kind.word ≠ .endOfSource by decide) with ⟨_, heq⟩ |
      ⟨hfits, ⟨r', heq, hr'⟩ | ⟨hrest, offset, r', he, heq⟩⟩
    · -- no environment is opened here
      rw [heq]
      exact hnone.ends hr
    · -- one is, and its name is read before it is looked at
      rw [heq]
      exact ends_behind_begin hallowed hnone.live hsome hrefused (fits_word_only.1 hfits) hr'
    · -- nothing can be recognized behind the command, which begins an opening
      rw [heq]
      refine .unrecognized he (.inl ?_)
      obtain ⟨name, hname⟩ := List.exists_mem_of_ne_nil _ hallowed
      obtain ⟨w, c, hc⟩ := (hsome name hname 0).live
      rw [hrest, List.map_cons, fits_word_only.1 hfits]
      exact ⟨_, c, hc⟩

theorem sections_sound (bound : Nat) :
    ∀ {amiss}, Sound (sections bound) (DerivesAll (Section .any)) amiss := by
  have block_sound : ∀ {bound amiss},
      Sound (block? bound) (Optionally (Derives (Section .any))) amiss := by
    intro bound amiss
    refine (block?_sound bound).of_fine.mono ?_ fun _ => id
    intro w found h
    obtain ⟨hblock, rfl⟩ := h
    cases found with
    | none =>
        rfl
    | some node =>
        exact ⟨.block (hblock node rfl), rfl⟩
  induction bound with
  | zero => intro amiss; exact .pure .nil
  | succ bound ih =>
      intro amiss
      unfold sections
      refine (orElse?_sound (command?_sound (bound + 1) ?_) block_sound).bind ?_
      · exact fun name hname text htext => .precondition hname htext
      intro w found hw
      cases found with
      | none =>
          cases hw
          exact .pure .nil
      | some node =>
          refine ih.bind fun v rest hrest => .pure ?_
          simpa using DerivesAll.cons hw hrest

/-- What stands behind an opening, with the closing, is written as a tree with a
property. -/
def DerivesInside (name : String) (P : Node Unit → Prop) (w : List Token)
    (node : Node Span) : Prop :=
  Derives P (opening name ++ w) node

theorem algorithmic_sound (bound start : Nat) :
    Sound (algorithmic bound start) (DerivesInside algorithmicName (Algorithmic .any)) amiss := by
  unfold algorithmic
  refine (sections_sound bound).bind ?_
  intro w children h
  obtain ⟨hchildren, rfl⟩ := h
  refine sound_spanFrom_bind fun span => ?_
  refine sound_closeEnvironment_bind (.pure ⟨?_, ?_⟩)
  · rw [Node.erase_algorithmic]
    exact .mk (by simpa using hchildren) (fun h => h.elim)
  · rw [Node.erase_algorithmic, Node.tokens, List.append_nil]

theorem caption?_sound (bound : Nat) :
    Sound (caption? bound) (Optionally (Derives (Part .any))) amiss := by
  unfold caption?
  refine sound_here_bind fun start => ?_
  refine sound_word_bind (.pure rfl) ?_
  refine (bracedPhrase_sound bound).bind ?_
  intro w text h
  obtain ⟨htext, rfl⟩ := h
  refine sound_spanFrom_bind fun span => .pure ⟨.caption htext, ?_⟩
  simp [Node.tokens]

/-- A node and those behind it. What is amiss behind the node is amiss with the
node in front, because a node leaves no environment open. -/
theorem sound_consAll {P : Node Unit → Prop} {outer : List String} {w : List Token}
    {node : Node Span} {read : ReadM (List (Node Span))}
    (hclosed : ∀ node : Node Unit, P node → ∀ v,
      openEnvironments outer (node.tokens ++ v) = openEnvironments outer v)
    (hnode : Derives P w node) (hread : Sound read (DerivesAll P) (Misnamed outer)) :
    Sound (read >>= fun rest => pure (node :: rest)) (fun v nodes => DerivesAll P (w ++ v) nodes)
      (fun v => Misnamed outer (w ++ v)) := by
  obtain ⟨hP, rfl⟩ := hnode
  have hread' : Sound read (DerivesAll P) (fun v => Misnamed outer (node.erase.tokens ++ v)) := by
    refine hread.mono (fun _ _ => id) fun v hv => ?_
    unfold Misnamed
    rwa [hclosed _ hP]
  refine hread'.bind fun v rest hrest => .pure ?_
  simpa using DerivesAll.cons ⟨hP, rfl⟩ hrest

theorem sound_consInside {P : Node Unit → Prop} {outer : List String} {w : List Token}
    {name : String} {node : Node Span} {read : ReadM (List (Node Span))}
    (hname : name ∈ allowedNames outer)
    (hclosed : ∀ node : Node Unit, P node → ∀ v,
      openEnvironments outer (node.tokens ++ v) = openEnvironments outer v)
    (hnode : DerivesInside name P w node) (hread : Sound read (DerivesAll P) (Misnamed outer)) :
    Sound (read >>= fun rest => pure (node :: rest))
      (fun v nodes => DerivesAll P (opening name ++ (w ++ v)) nodes)
      (fun v => Misnamed (name :: outer) (w ++ v)) := by
  refine (sound_consAll hclosed hnode hread).mono (fun v nodes => ?_) fun v hv => ?_
  · rw [List.append_assoc]
    exact id
  · unfold Misnamed at *
    rwa [List.append_assoc, openEnvironments_opening hname] at hv

theorem parts_sound (bound : Nat) :
    Sound (parts bound) (DerivesAll (Part .any)) (Misnamed [algorithmName]) := by
  have hclosed : ∀ node : Node Unit, Part .any node → ∀ v,
      openEnvironments [algorithmName] (node.tokens ++ v) = openEnvironments [algorithmName] v :=
    fun node hnode v => hnode.openEnvironments_eq
  induction bound with
  | zero => exact .pure .nil
  | succ bound ih =>
      unfold parts
      refine sound_environment_bind (by decide) ?_ ?_ ?_
      · -- no environment: a caption, or the end of the algorithm
        refine (caption?_sound bound).bind ?_
        intro w found hw
        cases found with
        | none =>
            cases hw
            exact .pure .nil
        | some node =>
            exact sound_consAll hclosed hw ih
      · intro name hname start
        obtain rfl : name = algorithmicName := by simpa [allowedNames] using hname
        simp only [if_pos]
        refine (algorithmic_sound bound start).bind fun w node hnode => ?_
        exact sound_consInside hname hclosed ⟨.algorithmic hnode.1, hnode.2⟩ ih
      · -- an algorithm inside an algorithm is refused, like any unknown name
        intro name hname
        refine ⟨.misplacedEnvironment name, rfl, fun start => ?_⟩
        have hother : name ≠ algorithmicName := by simpa [allowedNames] using hname
        simp only [if_neg hother]

theorem algorithm_sound (bound start : Nat) :
    Sound (algorithm bound start) (DerivesInside algorithmName (Environment .any))
      (Misnamed [algorithmName]) := by
  unfold algorithm
  refine (parts_sound bound).bind ?_
  intro w children h
  obtain ⟨hchildren, rfl⟩ := h
  refine sound_spanFrom_bind fun span => ?_
  refine sound_closeEnvironment_bind (.pure ⟨?_, ?_⟩)
  · rw [Node.erase_algorithm]
    exact .algorithm (by simpa using hchildren)
  · rw [Node.erase_algorithm, Node.tokens, List.append_nil]

theorem environments_sound (bound : Nat) :
    Sound (environments bound) (DerivesAll (Environment .any)) (Misnamed []) := by
  have hclosed : ∀ node : Node Unit, Environment .any node → ∀ v,
      openEnvironments [] (node.tokens ++ v) = openEnvironments [] v :=
    fun node hnode v => hnode.openEnvironments_eq
  induction bound with
  | zero => exact .pure .nil
  | succ bound ih =>
      unfold environments
      refine sound_environment_bind (by decide) (.pure .nil) ?_ ?_
      · intro name hname start
        by_cases hcases : name = algorithmName
        · subst hcases
          simp only [if_pos]
          refine (algorithm_sound bound start).bind fun w node hnode => ?_
          exact sound_consInside hname hclosed hnode ih
        · obtain rfl : name = algorithmicName := by simpa [allowedNames, hcases] using hname
          simp only [if_neg hcases, if_pos]
          refine (algorithmic_sound bound start).bind fun w node hnode => ?_
          exact sound_consInside hname hclosed ⟨.algorithmic hnode.1, hnode.2⟩ ih
      · intro name hname
        refine ⟨.unknownEnvironment name, rfl, fun start => ?_⟩
        obtain ⟨h1, h2⟩ : name ≠ algorithmName ∧ name ≠ algorithmicName := by
          simpa [allowedNames] using hname
        simp only [if_neg h1, if_neg h2]
        rfl

/-- A document is written with what is consumed and the end of the source. -/
def DerivesDocument (w : List Token) (node : Node Span) : Prop :=
  Derives (Document .any) (w ++ [.endOfSource]) node

theorem document_sound (bound : Nat) : Sound (document bound) DerivesDocument (Misnamed []) := by
  -- the end of the source is seen, but it stays ahead of the reader
  have expect_end : Sound (expect .endOfSource .any) (fun w _ => w = []) Fine := by
    refine ⟨⟨[], "", rfl⟩, ?_⟩
    intro ending r ss hr
    obtain ⟨s, rest, rfl⟩ := hr.exists_cons
    rcases hr.expect_end with ⟨_, cause, hcause, heq⟩ | ⟨_, rfl, r', heq, hr'⟩
    · rw [heq]
      exact .unexpected [] hcause rfl hr (.inl ⟨[], "", rfl⟩)
    · rw [heq]
      exact .reads [] rfl hr' rfl
  unfold document
  simp only [discard_eq, bind_assoc, pure_bind]
  refine (environments_sound bound).bind ?_
  intro w children h
  obtain ⟨hchildren, rfl⟩ := h
  refine expect_end.of_fine.bind ?_
  intro v text htext
  subst htext
  refine sound_spanFrom_bind fun span => .pure ⟨?_, ?_⟩
  · rw [Node.erase_root]
    exact .mk (by simpa using hchildren)
  · rw [Node.erase_root, Node.tokens]
    simp

/-- A document that is read leaves nothing ahead but the end of the source. -/
theorem document_reaches_end {bound : Nat} {ending : Ending} {r r' : Reader} {ss : List Symbol}
    {node : Node Span} (hr : Ahead ending r ss) (h : document bound r = .ok node r') :
    ∃ s : Symbol, s.token = .endOfSource ∧ Ahead ending r' [s] := by
  have henvironments := (environments_sound bound).ends hr
  unfold document at h
  simp only [discard_eq, bind_assoc, pure_bind] at h
  change EStateM.bind _ _ r = _ at h
  unfold EStateM.bind at h
  cases hend : environments bound r with
  | error fault r'' => rw [hend] at h; cases h
  | ok children r'' =>
      rw [hend] at h henvironments
      cases henvironments with
      | reads ws hss hr'' hws =>
          -- behind the environments nothing but the end is accepted
          obtain ⟨s, rest, rfl⟩ := hr''.exists_cons
          change EStateM.bind (expect .endOfSource .any) _ r'' = _ at h
          unfold EStateM.bind at h
          rcases hr''.expect_end with ⟨_, cause, _, heq⟩ | ⟨hs, rfl, r₃, heq, hr₃⟩
          · rw [heq] at h; cases h
          · rw [heq] at h
            cases h
            exact ⟨s, hs, hr₃⟩

end Grammar

end AlgoBox
