import AlgoBox.Proofs.Annotation
import AlgoBox.Proofs.Concatenation
import AlgoBox.Proofs.Lossless
import AlgoBox.Proofs.Pieces

/-!
# What the grammar reads is placed

Every production gives nodes that are placed among the symbols it consumes: one lemma
for each, in the order in which the production reads. `Places` says of a computation
which symbols it consumes if it gives a result, and that the end it leaves behind is that
of the last one. A span is made of the start of the current symbol and of that end, so it
is the span of just these symbols (`places_spanFrom_bind`).

The whole document comes last (`exists_laidOut_of_parse`).
-/

namespace AlgoBox

open AlgoBox.Symbol Reader Token

variable {β γ : Type}

/-! ## The end of the last symbol -/

section LastEnd

variable {r s : Reader} {kind : Kind} {wanted : Wanted} {text : String}

theorem lastEnd_of_accept (h : accept kind wanted r = .ok (some text) s) :
    s.lastEnd = r.current.stop := by
  change (if r.holds kind wanted then _ else _ : ReadM (Option String)) r = _ at h
  split at h
  · obtain ⟨text', t, hconsume, h⟩ := exists_of_bind_ok h
    cases h
    exact (last_of_consume hconsume).2
  · cases h

theorem lastEnd_of_expect (h : expect kind wanted r = .ok text s) :
    s.lastEnd = r.current.stop := by
  change (if r.current.kind ≠ kind then _ else _ : ReadM String) r = _ at h
  split at h
  · cases h
  · split at h
    · cases h
    · exact (last_of_consume h).2

end LastEnd

namespace Grammar

/-! ## Computations on symbols -/

/-- A computation that gives a result in front of some symbols, the last one before them
ending at `before`, consumes the first of them. These, the start of the next one and the
result are in the relation. -/
structure Places (before : Nat) (ss : List Symbol) (p : ReadM β)
    (L : List Symbol → Nat → β → Prop) : Prop where
  reads : ∀ {ending : Ending} {r s : Reader} {b : β}, Ahead ending r ss → r.lastEnd = before →
    p r = .ok b s → ∃ ws rest, ss = ws ++ rest ∧ Ahead ending s rest ∧
      s.lastEnd = lastStop before ws ∧ L ws (firstStart rest 0) b

section Rules

variable {before : Nat} {ss : List Symbol} {p : ReadM β} {L : List Symbol → Nat → β → Prop}
  {M : List Symbol → Nat → γ → Prop}

theorem Places.pure {b : β} (h : L [] (firstStart ss 0) b) : Places before ss (pure b) L := by
  constructor
  intro ending r s b' hr hlast heq
  cases heq
  exact ⟨[], ss, rfl, hr, hlast, h⟩

theorem Places.throw (fault : Fault) :
    Places before ss (throw fault) L := by
  constructor
  intro ending r s b hr hlast heq
  cases heq

theorem Places.bind {f : β → ReadM γ} (hp : Places before ss p L)
    (hf : ∀ w rest b, ss = w ++ rest → L w (firstStart rest 0) b →
      Places (lastStop before w) rest (f b) fun v next c => M (w ++ v) next c) :
    Places before ss (p >>= f) M := by
  constructor
  intro ending r s c hr hlast heq
  obtain ⟨b, t, hb, hc⟩ := exists_of_bind_ok heq
  obtain ⟨w, rest, hss, ht, hlast', hL⟩ := hp.reads hr hlast hb
  obtain ⟨v, rest', rfl, hs, hlast'', hM⟩ := (hf w rest b hss hL).reads ht hlast' hc
  refine ⟨w ++ v, rest', ?_, hs, ?_, hM⟩
  · rw [hss, List.append_assoc]
  · rw [hlast'', lastStop_append]

theorem Places.mono {L' : List Symbol → Nat → β → Prop} (h : Places before ss p L)
    (hL : ∀ w next b, L w next b → L' w next b) : Places before ss p L' := by
  constructor
  intro ending r s b hr hlast heq
  obtain ⟨w, rest, hss, hs, hlast', hb⟩ := h.reads hr hlast heq
  exact ⟨w, rest, hss, hs, hlast', hL w _ b hb⟩

theorem places_here_bind {f : Nat → ReadM γ} (hf : Places before ss (f (firstStart ss 0)) M) :
    Places before ss (here >>= f) M := by
  constructor
  intro ending r s c hr hlast heq
  obtain ⟨start, t, hstart, hc⟩ := exists_of_bind_ok heq
  cases hstart
  obtain ⟨x, rest, rfl⟩ := hr.exists_cons
  rw [hr.current_eq] at hc
  exact hf.reads hr hlast hc

theorem places_spanFrom_bind {start : Nat} {f : Span → ReadM γ}
    (hf : Places before ss (f ⟨start, max start before⟩) M) :
    Places before ss (spanFrom start >>= f) M := by
  constructor
  intro ending r s c hr hlast heq
  obtain ⟨span, t, hspan, hc⟩ := exists_of_bind_ok heq
  cases hspan
  rw [hlast] at hc
  exact hf.reads hr hlast hc

theorem places_accept_bind {kind : Kind} {wanted : Wanted} {f : Option String → ReadM γ}
    (hkind : kind ≠ .endOfSource) (hnone : Places before ss (f none) M)
    (hsome : ∀ s rest, ss = s :: rest → s.token.fits kind wanted = true →
      Places s.stop rest (f (some (s.token.text.getD ""))) fun v next c => M (s :: v) next c) :
    Places before ss (accept kind wanted >>= f) M := by
  constructor
  intro ending r s c hr hlast heq
  obtain ⟨found, t, hfound, hc⟩ := exists_of_bind_ok heq
  obtain ⟨x, rest, rfl⟩ := hr.exists_cons
  rcases hr.accept wanted hkind with
    ⟨-, haccept⟩ | ⟨hfits, ⟨t', haccept, ht⟩ | ⟨-, o, t', -, haccept⟩⟩
  · rw [haccept] at hfound
    cases hfound
    exact hnone.reads hr hlast hc
  · have hend := lastEnd_of_accept haccept
    rw [haccept] at hfound
    cases hfound
    rw [hr.current_eq] at hend
    obtain ⟨v, rest', rfl, hs, hlast', hM⟩ := (hsome x rest rfl hfits).reads ht hend hc
    exact ⟨x :: v, rest', rfl, hs, hlast', hM⟩
  · rw [haccept] at hfound
    cases hfound

theorem places_expect_bind {kind : Kind} {wanted : Wanted} {f : String → ReadM γ}
    (hkind : kind ≠ .endOfSource)
    (hf : ∀ s rest, ss = s :: rest → s.token.fits kind wanted = true →
      Places s.stop rest (f (s.token.text.getD "")) fun v next c => M (s :: v) next c) :
    Places before ss (expect kind wanted >>= f) M := by
  constructor
  intro ending r s c hr hlast heq
  obtain ⟨text, t, htext, hc⟩ := exists_of_bind_ok heq
  obtain ⟨x, rest, rfl⟩ := hr.exists_cons
  rcases hr.expect wanted hkind with
    ⟨-, cause, -, hexpect⟩ | ⟨hfits, ⟨t', hexpect, ht⟩ | ⟨-, o, t', -, hexpect⟩⟩
  · rw [hexpect] at htext
    cases htext
  · have hend := lastEnd_of_expect hexpect
    rw [hexpect] at htext
    cases htext
    rw [hr.current_eq] at hend
    obtain ⟨v, rest', rfl, hs, hlast', hM⟩ := (hf x rest rfl hfits).reads ht hend hc
    exact ⟨x :: v, rest', rfl, hs, hlast', hM⟩
  · rw [hexpect] at htext
    cases htext

theorem places_word_bind {text : String} {f : Bool → ReadM γ}
    (hfalse : Places before ss (f false) M)
    (htrue : ∀ s rest, ss = s :: rest → s.token = .word text →
      Places s.stop rest (f true) fun v next c => M (s :: v) next c) :
    Places before ss (word? text >>= f) M := by
  unfold word?
  simp only [bind_assoc, pure_bind]
  refine places_accept_bind (by decide) hfalse fun s rest hss hfits => ?_
  exact htrue s rest hss (fits_word_only.1 hfits)

theorem places_wordOf_bind {texts : List String} {f : Option String → ReadM γ}
    (hnone : Places before ss (f none) M)
    (hsome : ∀ text s rest, ss = s :: rest → s.token = .word text →
      Places s.stop rest (f (some text)) fun v next c => M (s :: v) next c) :
    Places before ss (wordOf? texts >>= f) M := by
  refine places_accept_bind (by decide) hnone fun s rest hss hfits => ?_
  obtain ⟨text, -, htoken⟩ := fits_word_oneOf.1 hfits
  rw [htoken]
  exact hsome text s rest hss htoken

/-- A rule for each token that has to be here. -/
theorem places_token_bind {t : Token} {kind : Kind} {wanted : Wanted} {f : Unit → ReadM γ}
    (hkind : kind ≠ .endOfSource) (honly : ∀ u : Token, u.fits kind wanted = true ↔ u = t)
    (hf : ∀ s rest, ss = s :: rest → s.token = t →
      Places s.stop rest (f ()) fun v next c => M (s :: v) next c) :
    Places before ss (discard (expect kind wanted) >>= f) M := by
  simp only [discard_eq, bind_assoc, pure_bind]
  refine places_expect_bind hkind fun s rest hss hfits => ?_
  exact hf s rest hss ((honly _).1 hfits)

theorem places_closingWord_bind {text : String} {f : Unit → ReadM γ}
    (hf : ∀ s rest, ss = s :: rest → s.token = .word text →
      Places s.stop rest (f ()) fun v next c => M (s :: v) next c) :
    Places before ss (closingWord text >>= f) M :=
  places_token_bind (by decide) (fun _ => fits_word_only) hf

theorem places_openBrace_bind {f : Unit → ReadM γ}
    (hf : ∀ s rest, ss = s :: rest → s.token = .openBrace →
      Places s.stop rest (f ()) fun v next c => M (s :: v) next c) :
    Places before ss (openBrace >>= f) M :=
  places_token_bind (by decide) (fun _ => fits_openBrace) hf

theorem places_closeBrace_bind {f : Unit → ReadM γ}
    (hf : ∀ s rest, ss = s :: rest → s.token = .closeBrace →
      Places s.stop rest (f ()) fun v next c => M (s :: v) next c) :
    Places before ss (closeBrace >>= f) M :=
  places_token_bind (by decide) (fun _ => fits_closeBrace) hf

theorem bracedName_places :
    Places before ss Grammar.bracedName fun ws _ name =>
      ws.map Symbol.token = Token.bracedName name := by
  unfold Grammar.bracedName
  refine places_openBrace_bind fun s₁ rest₁ _ h₁ => ?_
  refine places_expect_bind (by decide) fun s₂ rest₂ _ h₂ => ?_
  refine places_closeBrace_bind fun s₃ rest₃ _ h₃ => .pure ?_
  obtain ⟨name, hname⟩ := fits_ordinary_any.1 h₂
  simp only [List.map_cons, List.map_nil, h₁, hname, h₃]
  rfl

end Rules

/-- The symbols that a computation consumes are those of some pieces of its result. -/
def Lays (p : ReadM β) (pieces : β → List (Piece Span)) : Prop :=
  ∀ before ss, Places before ss p fun ws next b => PlacedAll before ws next (pieces b)

/-- The span that a computation in front of `w ++ rest` makes when it has consumed `w`. -/
theorem span_eq (before : Nat) (w rest : List Symbol) :
    (⟨firstStart (w ++ rest) 0, max (firstStart (w ++ rest) 0) (lastStop before w)⟩ : Span) =
      .over before w (firstStart rest 0) := by
  rw [firstStart_append]
  rfl

theorem placedAll_snoc {before next : Nat} {w : List Symbol} {s' : Symbol} {t : Token}
    {pieces : List (Piece Span)} (h : PlacedAll before w s'.start pieces) (hs' : s'.token = t) :
    PlacedAll before (w ++ [s']) next (pieces ++ [.token t]) :=
  h.append (.token hs' .nil)

/-- A phrase between braces. -/
theorem placedAll_braced {before next : Nat} {w : List Symbol} {s s' : Symbol}
    {words : Phrase Span} (hs : s.token = .openBrace) (hs' : s'.token = .closeBrace)
    (hwords : PlacedAll s.stop w s'.start [.part [] (.text words)]) :
    PlacedAll before (s :: (w ++ [s'])) next (Node.enclosed (.text words)) :=
  .token hs (placedAll_snoc hwords hs')

/-! ## Phrases -/

theorem leafOf?_places {forms : List (Kind × Wanted × (String → Leaf))}
    (hforms : ∀ form ∈ forms, form ∈ leafForms) (before : Nat) (ss : List Symbol) :
    Places before ss (leafOf? forms) fun ws _ found =>
      ws.map Symbol.token = found.toList.map Leaf.token := by
  induction forms with
  | nil => exact .pure rfl
  | cons form rest ih =>
      obtain ⟨kind, wanted, make⟩ := form
      have hform := hforms _ List.mem_cons_self
      have hkind : kind ≠ .endOfSource := by
        intro h
        subst h
        simp [leafForms] at hform
      unfold leafOf?
      refine places_accept_bind hkind ?_ fun s rest hss hfits => .pure ?_
      · exact ih fun form hmem => hforms form (List.mem_cons_of_mem _ hmem)
      · exact congrArg (· :: []) (fits_leafForms hform hfits).2.symm

theorem leaf?_lays : Lays leaf? Node.enclosed? := by
  intro before ss
  unfold leaf?
  refine places_here_bind ?_
  refine (leafOf?_places (fun _ => id) before ss).bind ?_
  intro w rest found hss hw
  subst hss
  cases found with
  | none =>
      cases List.map_eq_nil_iff.1 hw
      exact .pure .nil
  | some leaf =>
      obtain ⟨s, rfl, hs⟩ := List.map_eq_singleton_iff.1 hw
      refine places_spanFrom_bind (.pure ?_)
      exact .single (.mk rfl (.token hs .nil))

/-- A node and those behind it. -/
theorem places_cons {before : Nat} {w rest : List Symbol} {node : Node Span}
    {read : ReadM (List (Node Span))} (hw : PlacedAll before w (firstStart rest 0) node.enclosed)
    (hread : Places (lastStop before w) rest read fun ws next nodes =>
      PlacedAll (lastStop before w) ws next (Node.enclosedAll nodes)) :
    Places (lastStop before w) rest (read >>= fun nodes => pure (node :: nodes))
      fun v next nodes => PlacedAll before (w ++ v) next (Node.enclosedAll nodes) := by
  refine hread.bind fun v rest' nodes hrest hv => .pure ?_
  subst hrest
  rw [firstStart_append] at hw
  rw [List.append_nil]
  exact hw.append hv

theorem items_lays (bound : Nat) : Lays (items bound) Node.enclosedAll := by
  induction bound with
  | zero => exact fun _ _ => .pure .nil
  | succ bound ih =>
      intro before ss
      unfold items
      refine (leaf?_lays before ss).bind ?_
      intro w rest found hss hw
      subst hss
      cases found with
      | some leaf => exact places_cons hw (ih _ _)
      | none =>
          cases hw
          -- no leaf is ahead: a group of items is, or the end of the phrase
          refine places_accept_bind (by decide) (.pure .nil) fun s rest' hrest hs => ?_
          refine places_here_bind ?_
          refine (ih _ _).bind fun u rest₁ inner hrest₁ hu => ?_
          refine places_spanFrom_bind ?_
          refine places_closeBrace_bind fun s' rest₂ hrest₂ hs' => ?_
          refine (ih _ _).bind fun v rest₃ more hrest₃ hv => .pure ?_
          subst hrest hrest₁ hrest₂ hrest₃
          rw [span_eq]
          have hwords : Placed [] s.stop u s'.start
              (.text (.mk (.over s.stop u s'.start) inner)) := .mk rfl hu
          have hgroup : PlacedAll before (s :: (u ++ [s'])) (firstStart v (firstStart rest₃ 0))
              (Node.enclosed (.text (.mk (.over s.stop u s'.start) inner))) :=
            placedAll_braced (fits_openBrace.1 hs) hs' (.single hwords)
          rw [List.nil_append, List.append_nil, List.append_cons, ← List.cons_append]
          refine hgroup.append ?_
          rwa [lastStop_cons, lastStop_append, lastStop_cons, lastStop_nil]

theorem phrase_lays (bound : Nat) : Lays (phrase bound) fun words => [.part [] (.text words)] := by
  intro before ss
  unfold phrase
  refine places_here_bind ?_
  refine (items_lays bound before ss).bind fun w rest inner hrest hw => ?_
  refine places_spanFrom_bind (.pure ?_)
  subst hrest
  rw [List.append_nil]
  exact .single (.mk (span_eq _ _ _) hw)

theorem bracedPhrase_lays (bound : Nat) :
    Lays (bracedPhrase bound) fun words => Node.enclosed (.text words) := by
  intro before ss
  unfold bracedPhrase
  refine places_openBrace_bind fun s rest _ hs => ?_
  refine (phrase_lays bound _ _).bind fun w rest' words _ hw => ?_
  refine places_closeBrace_bind fun s' rest'' hrest hs' => .pure ?_
  subst hrest
  exact placedAll_braced hs hs' hw

/-! ## Statements -/

theorem command?_lays (words : List String) (bound : Nat) :
    Lays (command? words bound) Node.enclosed? := by
  intro before ss
  unfold command?
  refine places_here_bind ?_
  refine places_wordOf_bind (.pure .nil) fun name s rest hrest hs => ?_
  refine (phrase_lays bound _ _).bind fun w rest' text _ hw => ?_
  refine places_spanFrom_bind (.pure ?_)
  subst hrest
  rw [List.append_nil]
  exact .single (.mk rfl (.token hs hw))

theorem comment?_lays (bound : Nat) : Lays (comment? bound) Node.enclosed? := by
  intro before ss
  unfold comment?
  refine places_here_bind ?_
  refine places_word_bind (.pure .nil) fun s rest hrest hs => ?_
  refine (bracedPhrase_lays bound _ _).bind fun w rest' text _ hw => ?_
  refine places_spanFrom_bind (.pure ?_)
  subst hrest
  rw [List.append_nil]
  exact .single (.mk rfl (.token hs hw))

theorem call?_lays (bound : Nat) : Lays (call? bound) Node.enclosed? := by
  intro before ss
  unfold call?
  refine places_here_bind ?_
  refine places_word_bind (.pure .nil) fun s rest hrest hs => ?_
  refine bracedName_places.bind fun u rest₁ name _ hu => ?_
  refine (bracedPhrase_lays bound _ _).bind fun w rest₂ args hrest₂ hw => ?_
  refine places_spanFrom_bind (.pure ?_)
  subst hrest
  rw [List.append_nil, ← lastStop_append]
  exact .single (.mk rfl (.token hs ((PlacedAll.of_tokens hu).append hw)))

section Bodies

variable {body : ReadM (Option (Node Span))} (hbody : Lays body Node.enclosed?)
include hbody

/-- An arm is placed among its symbols, the one of its keyword included. -/
theorem arm_places (bound : Nat) {keyword : String} {s : Symbol} (hs : s.token = .word keyword)
    (before : Nat) (rest : List Symbol) :
    Places s.stop rest (arm bound body s.start) fun ws next arm =>
      Placed [.word keyword] before (s :: ws) next (.branch arm) := by
  unfold arm
  refine (bracedPhrase_lays bound _ _).bind fun u rest₁ cond _ hu => ?_
  refine (hbody _ _).bind fun v rest₂ inner hrest₂ hv => ?_
  refine places_spanFrom_bind (.pure ?_)
  subst hrest₂
  rw [firstStart_append] at hu
  rw [List.append_nil, ← lastStop_append]
  exact .mk rfl (.token hs (hu.append hv))

theorem laterArms_lays (bound count : Nat) :
    Lays (laterArms (arm bound body) count) (Branch.pieces "ELIF") := by
  induction count with
  | zero => exact fun _ _ => .pure .nil
  | succ count ih =>
      intro before ss
      unfold laterArms
      refine places_here_bind ?_
      refine places_word_bind (.pure .nil) fun s rest hrest hs => ?_
      subst hrest
      refine (arm_places hbody bound hs before rest).bind fun u rest₁ first _ hu => ?_
      refine (ih _ _).bind fun v rest₂ later hrest₂ hv => .pure ?_
      subst hrest₂
      rw [firstStart_append] at hu
      rw [List.append_nil, ← List.cons_append]
      exact .part rfl hu hv

theorem conditional?_lays (bound : Nat) : Lays (conditional? bound body) Node.enclosed? := by
  intro before ss
  unfold conditional?
  refine places_here_bind ?_
  refine places_word_bind (.pure .nil) fun s rest hrest hs => ?_
  subst hrest
  refine (arm_places hbody bound hs before rest).bind fun u rest₁ first _ hu => ?_
  refine (laterArms_lays hbody bound bound _ _).bind fun v rest₂ later hrest₂ hv => ?_
  subst hrest₂
  rw [firstStart_append] at hu
  have harms : PlacedAll before (s :: (u ++ v)) (firstStart rest₂ 0)
      (Branch.pieces "IF" (first :: later)) := .part (List.cons_append ..).symm hu hv
  refine places_word_bind ?_ fun e rest₃ hrest₃ he => ?_
  · show Places _ _ (Pure.pure none >>= _) _
    rw [pure_bind]
    refine places_closingWord_bind fun s' rest₃ hrest₃ hs' => ?_
    refine places_spanFrom_bind (.pure ?_)
    subst hrest₃
    rw [← List.append_assoc, ← List.cons_append]
    exact .single (.mk (by simp [Span.over, Node.loc]) (placedAll_snoc harms hs'))
  · refine (hbody _ _).bind fun w rest₄ elseBody hrest₄ hw => ?_
    refine places_closingWord_bind fun s' rest₅ hrest₅ hs' => ?_
    refine places_spanFrom_bind (.pure ?_)
    subst hrest₃ hrest₄ hrest₅
    rw [← List.append_assoc, ← List.cons_append]
    refine .single (.mk (by simp [Span.over, Node.loc]) ?_)
    exact harms.append (v := e :: (w ++ [s'])) (.token he (placedAll_snoc hw hs'))

theorem loop?_lays (bound : Nat) : Lays (loop? bound body) Node.enclosed? := by
  intro before ss
  unfold loop?
  refine places_here_bind ?_
  refine places_wordOf_bind (.pure .nil) fun keyword s rest hrest hs => ?_
  refine (bracedPhrase_lays bound _ _).bind fun u rest₁ cond hrest₁ hu => ?_
  refine (hbody _ _).bind fun v rest₂ inner hrest₂ hv => ?_
  refine places_closingWord_bind fun s' rest₃ hrest₃ hs' => ?_
  refine places_spanFrom_bind (.pure ?_)
  subst hrest hrest₁ hrest₂ hrest₃
  rw [List.append_cons, firstStart_append] at hu
  refine .single (.mk (by simp [Span.over, Node.loc]) ?_)
  exact .token hs (hu.append (placedAll_snoc hv hs'))

theorem function?_lays (bound : Nat) : Lays (function? bound body) Node.enclosed? := by
  intro before ss
  unfold function?
  refine places_here_bind ?_
  refine places_wordOf_bind (.pure .nil) fun keyword s rest hrest hs => ?_
  refine bracedName_places.bind fun t rest₁ name _ ht => ?_
  refine (bracedPhrase_lays bound _ _).bind fun u rest₂ params hrest₁ hu => ?_
  refine (hbody _ _).bind fun v rest₃ inner hrest₂ hv => ?_
  refine places_closingWord_bind fun s' rest₄ hrest₃ hs' => ?_
  refine places_spanFrom_bind (.pure ?_)
  subst hrest hrest₁ hrest₂ hrest₃
  rw [List.append_cons, firstStart_append] at hu
  refine .single (.mk (by simp [Span.over, Node.loc]) ?_)
  exact .token hs ((PlacedAll.of_tokens ht).append (hu.append (placedAll_snoc hv hs')))

omit hbody in
theorem orElse?_lays {first second : ReadM (Option (Node Span))}
    (hfirst : Lays first Node.enclosed?) (hsecond : Lays second Node.enclosed?) : Lays (orElse? first second) Node.enclosed? := by
  intro before ss
  unfold orElse?
  refine (hfirst before ss).bind ?_
  intro w rest found hrest hw
  cases found with
  | none =>
      cases hw
      exact hsecond _ _
  | some node =>
      refine .pure ?_
      rwa [List.append_nil]

theorem statement?_lays (bound : Nat) : Lays (statement? bound body) Node.enclosed? :=
  orElse?_lays (conditional?_lays hbody bound) <|
  orElse?_lays (loop?_lays hbody bound) <|
  orElse?_lays (function?_lays hbody bound) <|
  orElse?_lays (command?_lays statementWords bound) <|
  orElse?_lays (comment?_lays bound) (call?_lays bound)

end Bodies

theorem blockOf?_lays {read : ReadM (List (Node Span))} (hread : Lays read Node.enclosedAll) :
    Lays (blockOf? read) Node.enclosed? := by
  intro before ss
  unfold blockOf?
  refine places_here_bind ?_
  refine (hread before ss).bind ?_
  intro w rest children hrest hw
  subst hrest
  cases children with
  | nil =>
      cases hw
      exact .pure .nil
  | cons node more =>
      refine places_spanFrom_bind (.pure ?_)
      rw [List.append_nil]
      exact .single (.mk (span_eq _ _ _) hw)

theorem statements_lays (bound : Nat) : Lays (statements bound) Node.enclosedAll := by
  induction bound with
  | zero => exact fun _ _ => .pure .nil
  | succ bound ih =>
      intro before ss
      unfold statements
      refine (statement?_lays (blockOf?_lays ih) bound before ss).bind ?_
      intro w rest found hrest hw
      cases found with
      | none =>
          cases hw
          exact .pure .nil
      | some node => exact places_cons hw (ih _ _)

/-! ## Environments -/

theorem sections_lays (bound : Nat) : Lays (sections bound) Node.enclosedAll := by
  induction bound with
  | zero => exact fun _ _ => .pure .nil
  | succ bound ih =>
      intro before ss
      unfold sections
      have hsection : Lays (orElse? (command? preconditionWords (bound + 1)) (block? (bound + 1)))
          Node.enclosed? :=
        orElse?_lays (command?_lays _ _) (blockOf?_lays (statements_lays _))
      refine (hsection before ss).bind ?_
      intro w rest found hrest hw
      cases found with
      | none =>
          cases hw
          exact .pure .nil
      | some node => exact places_cons hw (ih _ _)

theorem caption?_lays (bound : Nat) : Lays (caption? bound) Node.enclosed? := by
  intro before ss
  unfold caption?
  refine places_here_bind ?_
  refine places_word_bind (.pure .nil) fun s rest hrest hs => ?_
  refine (bracedPhrase_lays bound _ _).bind fun w rest' text _ hw => ?_
  refine places_spanFrom_bind (.pure ?_)
  subst hrest
  rw [List.append_nil]
  exact .single (.mk rfl (.token hs hw))

/-- The symbols are those of the opening of an environment, if one is opened. -/
def Opens (ws : List Symbol) : Option (String × Nat) → Prop
  | none => ws = []
  | some (name, start) => ws.map Symbol.token = opening name ∧ start = firstStart ws 0

theorem environment?_places (before : Nat) (ss : List Symbol) :
    Places before ss environment? fun ws _ found => Opens ws found := by
  unfold environment?
  refine places_here_bind ?_
  refine places_word_bind (.pure rfl) fun s rest hrest hs => ?_
  refine bracedName_places.bind fun w rest' name _ hw => .pure ⟨?_, ?_⟩
  · rw [List.map_cons, hs, List.append_nil, hw]
    rfl
  · rw [hrest]
    rfl

theorem closeEnvironment_places (name : String) (before : Nat) (ss : List Symbol) :
    Places before ss (closeEnvironment name) fun ws _ _ =>
      ws.map Symbol.token = closing name := by
  unfold closeEnvironment
  refine places_closingWord_bind fun s₁ rest₁ _ h₁ => ?_
  refine places_openBrace_bind fun s₂ rest₂ _ h₂ => ?_
  refine places_token_bind (by decide) (fun _ => fits_ordinary_only) fun s₃ rest₃ _ h₃ => ?_
  have hlast : Places s₃.stop rest₃ (closeBrace >>= pure) fun v _ _ =>
      (s₁ :: s₂ :: s₃ :: v).map Symbol.token = closing name := by
    refine places_closeBrace_bind fun s₄ rest₄ _ h₄ => .pure ?_
    simp only [List.map_cons, List.map_nil, h₁, h₂, h₃, h₄]
    rfl
  rwa [bind_pure] at hlast

/-- An environment that is placed behind its opening, with its closing. -/
theorem places_environment {name : String} {us : List Symbol} {before : Nat} {rest : List Symbol}
    {read : ReadM (List (Node Span))} {make : Span → List (Node Span) → Node Span}
    (hus : us.map Symbol.token = opening name) (hread : Lays read Node.enclosedAll)
    (hloc : ∀ span children, (make span children).loc = span)
    (hpieces : ∀ span children, (make span children).pieces =
      (opening name).map .token ++ Node.enclosedAll children)
    (henclosed : ∀ span children, (make span children).enclosed =
      .part [] (make span children) :: (closing name).map .token) :
    Places (lastStop before us) rest (do
      let children ← read
      let span ← spanFrom (firstStart us 0)
      closeEnvironment name
      return make span children) fun ws next node =>
        PlacedAll before (us ++ ws) next node.enclosed := by
  refine (hread _ _).bind fun w rest₁ children hrest₁ hw => ?_
  refine places_spanFrom_bind ?_
  refine (closeEnvironment_places name _ _).bind fun v rest₂ _ hrest₂ hv => .pure ?_
  subst hrest₁ hrest₂
  rw [firstStart_append] at hw
  rw [List.append_nil, ← List.append_assoc, henclosed]
  refine .part rfl (.mk ?_ ?_) (.of_tokens hv)
  · rw [hloc]
    cases us with
    | nil => cases hus
    | cons s us => simp [Span.over]
  · rw [hpieces]
    exact (PlacedAll.of_tokens hus).append hw

section Opened

variable {us : List Symbol} {before : Nat} {rest : List Symbol}

theorem algorithmic_places (bound : Nat) (hus : us.map Symbol.token = opening algorithmicName) :
    Places (lastStop before us) rest (algorithmic bound (firstStart us 0)) fun ws next node =>
      PlacedAll before (us ++ ws) next node.enclosed :=
  places_environment hus (sections_lays bound) (fun _ _ => rfl) (fun _ _ => rfl) fun _ _ => rfl

/-- A node behind its opening and those behind the node. -/
theorem places_consOpened {p : ReadM (Node Span)} {read : ReadM (List (Node Span))}
    (hp : Places (lastStop before us) rest p fun ws next node =>
      PlacedAll before (us ++ ws) next node.enclosed)
    (hread : Lays read Node.enclosedAll) :
    Places (lastStop before us) rest (do return (← p) :: (← read)) fun v next nodes =>
      PlacedAll before (us ++ v) next (Node.enclosedAll nodes) := by
  refine hp.bind fun w rest' node _ hw => ?_
  have hcons := places_cons hw (hread _ _)
  rw [lastStop_append] at hcons
  exact hcons.mono fun v next nodes => by rw [List.append_assoc]; exact id

theorem parts_lays (bound : Nat) : Lays (parts bound) Node.enclosedAll := by
  induction bound with
  | zero => exact fun _ _ => .pure .nil
  | succ bound ih =>
      intro before ss
      unfold parts
      refine (environment?_places before ss).bind ?_
      intro us rest found _ hus
      cases found with
      | none =>
          cases hus
          refine (caption?_lays bound _ _).bind ?_
          intro w rest' found _ hw
          cases found with
          | none =>
              cases hw
              exact .pure .nil
          | some node => exact places_cons hw (ih _ _)
      | some opened =>
          obtain ⟨name, start⟩ := opened
          obtain ⟨hus, rfl⟩ := hus
          by_cases hname : name = algorithmicName
          · subst hname
            simp only [if_pos]
            exact places_consOpened (algorithmic_places bound hus) ih
          · simp only [if_neg hname]
            exact .throw _

theorem algorithm_places (bound : Nat) (hus : us.map Symbol.token = opening algorithmName) :
    Places (lastStop before us) rest (algorithm bound (firstStart us 0)) fun ws next node =>
      PlacedAll before (us ++ ws) next node.enclosed :=
  places_environment hus (parts_lays bound) (fun _ _ => rfl) (fun _ _ => rfl) fun _ _ => rfl

theorem environments_lays (bound : Nat) : Lays (environments bound) Node.enclosedAll := by
  induction bound with
  | zero => exact fun _ _ => .pure .nil
  | succ bound ih =>
      intro before ss
      unfold environments
      refine (environment?_places before ss).bind ?_
      intro us rest found _ hus
      cases found with
      | none =>
          cases hus
          exact .pure .nil
      | some opened =>
          obtain ⟨name, start⟩ := opened
          obtain ⟨hus, rfl⟩ := hus
          by_cases hname : name = algorithmName
          · subst hname
            simp only [if_pos]
            exact places_consOpened (algorithm_places bound hus) ih
          · by_cases hname' : name = algorithmicName
            · subst hname'
              simp only [if_neg hname, if_pos]
              exact places_consOpened (algorithmic_places bound hus) ih
            · simp only [if_neg hname, if_neg hname']
              exact (Places.throw (L := fun _ _ _ => False) _).bind fun _ _ _ _ h => h.elim

end Opened

/-- Behind the environments of a document nothing is left but the end of the source. -/
theorem document_placed {bound : Nat} {ending : Ending} {r r' : Reader} {ss : List Symbol}
    {node : Node Span} (hr : Ahead ending r ss) (hlast : r.lastEnd = 0)
    (h : document bound r = .ok node r') :
    ∃ ws s, ss = ws ++ [s] ∧ s.token = .endOfSource ∧ node.loc = ⟨0, s.stop⟩ ∧
      PlacedAll 0 ws s.start node.pieces := by
  unfold document at h
  simp only [discard_eq, bind_assoc, pure_bind] at h
  obtain ⟨children, t, hchildren, h⟩ := exists_of_bind_ok h
  obtain ⟨text, t', htext, h⟩ := exists_of_bind_ok h
  obtain ⟨ws, rest, hss, ht, -, hplaced⟩ := (environments_lays bound 0 ss).reads hr hlast hchildren
  obtain ⟨s, more, rfl⟩ := ht.exists_cons
  rcases ht.expect_end with ⟨-, cause, -, hexpect⟩ | ⟨hs, rfl, t'', hexpect, -⟩
  · rw [hexpect] at htext
    cases htext
  · have hend := lastEnd_of_expect htext
    rw [ht.current_eq] at hend
    cases h
    refine ⟨ws, s, hss, hs, ?_, hplaced⟩
    rw [Node.loc, hend, Nat.zero_max]

end Grammar

/-- The spans of a document are those of the symbols of a source that is cut to its end. -/
structure Node.LaidOut (source : List Char) (tree : Node Grammar.Span) : Prop where
  document : Document .grouping tree
  complete : (scan source).ending = .complete source.length
  loc_eq : tree.loc = ⟨0, source.length⟩
  placed : PlacedAll 0 (scan source).symbols source.length tree.pieces

/-- What stands in a document is the document, or a constituent placed among the symbols. -/
theorem Node.LaidOut.within {source : List Char} {tree node : Node Grammar.Span}
    (h : tree.LaidOut source) (hnode : tree.Within node) :
    node = tree ∨ Constituent .grouping node ∧
      PlacedIn 0 (scan source).symbols source.length node := by
  rcases h.document.within hnode with heq | hconstituent
  · exact .inl heq
  · rcases h.placed.within hnode with heq | hplaced
    · exact .inl heq
    · exact .inr ⟨hconstituent, hplaced⟩

/-- A source is read as the locations of a tree that is laid out over the source. -/
theorem exists_laidOut_of_parse {source : String} {tree : Node Source.Location}
    (h : parse source = .ok tree) :
    ∃ node : Node Grammar.Span, tree = node.map (Grammar.Span.location (.ofSource source.toList)) ∧
      node.LaidOut source.toList := by
  have hparses : ParsesAs source tree.erase := congrArg (Except.map Node.erase) h
  obtain ⟨-, hgrouping, -⟩ := parsesAs_iff.1 hparses
  obtain ⟨r, span, nodes, -, hr, hread, -⟩ := exists_of_parse h
  have hahead := ahead_scan hr
  obtain ⟨⟨length, hlength⟩, -⟩ := exists_document_of_read hahead hread
  have htiled : Tiled 0 source.toList (scan source.toList).stream := tiled_of_scanFrom hlength
  have hstream : (scan source.toList).stream = (scan source.toList).symbols ++ [.atEnd length] := by
    rw [Scan.stream, hlength]
    rfl
  rw [parse_eq, hr] at h
  change (Grammar.read r).map _ = _ at h
  rw [hread] at h
  unfold Grammar.read at hread
  cases hdocument : Grammar.document r.remaining r with
  | error fault s =>
      rw [hdocument] at hread
      cases hread
  | ok node s =>
      rw [hdocument] at hread
      cases hread
      cases h
      obtain ⟨ws, s, hss, hs, hloc, hplaced⟩ :=
        Grammar.document_placed hahead (last_of_ofScan hr).2 hdocument
      -- the last symbol is the end of the source, which is as long as the tiles say
      obtain ⟨inner, hinner, -⟩ := htiled.ends
      obtain ⟨-, hend⟩ := List.append_inj' (hstream.symm.trans hinner) rfl
      obtain ⟨rfl, hlast⟩ := List.append_inj' (hss.symm.trans hstream) rfl
      obtain rfl : length = source.toList.length := by simpa [Symbol.atEnd] using hend
      obtain rfl : s = .atEnd source.toList.length := by simpa using hlast
      rw [Node.erase_map] at hgrouping
      exact ⟨_, rfl, Document.of_map _ _ hgrouping, hlength, hloc, hplaced⟩

end AlgoBox
