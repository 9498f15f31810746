import AlgoBox.Proofs.Derivation
import AlgoBox.Proofs.Lookahead

/-!
# Outcomes

What a computation on a reader may end in, said once for all productions. A
production comes with a relation `L` between tokens and results. If it succeeds,
what it consumed and what it gives are related. If it meets a fault, the tokens
before the fault begin tokens of the relation: what went wrong is wrong in the
place that is reported, and not before it. What is `amiss` is left out of this:
tokens that a later symbol was read behind before anyone found fault with them.

* `Sound.bind`: the rule for computations in a row, where what follows is sound
  for what can stand behind the tokens consumed so far;
* `Sound.accept`, `Sound.expect`: the computations that consume.
-/

namespace AlgoBox

open AlgoBox.Symbol

namespace Reader

variable {β γ : Type} {ending : Ending} {r : Reader} {ss : List Symbol}

/-- Some continuation of the tokens is in the relation. -/
def Begins (L : List Token → β → Prop) (w : List Token) : Prop := ∃ more b, L (w ++ more) b

/-- How a computation may end on the symbols `ss`. -/
inductive Ends (ending : Ending) (ss : List Symbol) (L : List Token → β → Prop)
    (amiss : List Token → Prop) : Outcome β → Prop
  | reads (ws : List Symbol) {rest : List Symbol} {b : β} {r : Reader} :
      ss = ws ++ rest → Ahead ending r rest → L (ws.map token) b →
      Ends ending ss L amiss (.ok b r)
  | unrecognized {offset : Nat} {r : Reader} :
      ending = .unrecognized offset → Begins L (ss.map token) ∨ amiss (ss.map token) →
      Ends ending ss L amiss (.error ⟨.unrecognizable, offset⟩ r)
  | unexpected (ws : List Symbol) {rest : List Symbol} {s : Symbol} {cause : Fault.Cause}
      {r : Reader} :
      cause.IsUnexpected → ss = ws ++ s :: rest → Ahead ending r (s :: rest) →
      Begins L (ws.map token) ∨ amiss (ws.map token) →
      Ends ending ss L amiss (.error ⟨cause, s.start⟩ r)
  | misnamed (ws : List Symbol) {four rest : List Symbol} {s : Symbol} {name : String}
      {cause : Fault.Cause}
      {r : Reader} :
      cause.Misnames name → ss = ws ++ (s :: four ++ rest) →
      (s :: four).map token = Token.opening name → Ahead ending r rest →
      Begins L (ws.map token) →
      (∀ more, amiss (ws.map token ++ .word "begin" :: .openBrace :: .ordinary name :: more)) →
      Ends ending ss L amiss (.error ⟨cause, s.start⟩ r)

/-- What a computation consumes and gives is in the relation, which is not
empty. -/
structure Sound (p : ReadM β) (L : List Token → β → Prop) (amiss : List Token → Prop) : Prop where
  live : ∃ w b, L w b
  ends : ∀ {ending r ss}, Ahead ending r ss → Ends ending ss L amiss (p r)

/-- Nothing can be amiss. -/
def Fine (_ : List Token) : Prop := False

theorem Begins.mono {L L' : List Token → β → Prop} {w : List Token} (hL : ∀ w b, L w b → L' w b)
    (h : Begins L w) : Begins L' w := by
  obtain ⟨more, b, hb⟩ := h
  exact ⟨more, b, hL _ b hb⟩

theorem Ends.mono {L L' : List Token → β → Prop} {amiss amiss' : List Token → Prop}
    {x : Outcome β} (h : Ends ending ss L amiss x) (hL : ∀ w b, L w b → L' w b)
    (ha : ∀ w, amiss w → amiss' w) : Ends ending ss L' amiss' x := by
  cases h with
  | reads _ hss hr hb => exact .reads _ hss hr (hL _ _ hb)
  | unrecognized he hw => exact .unrecognized he (hw.imp (.mono hL) (ha _))
  | unexpected _ hc hss hr hw => exact .unexpected _ hc hss hr (hw.imp (.mono hL) (ha _))
  | misnamed _ hc hss hfour hr hw hbad =>
      exact .misnamed _ hc hss hfour hr (hw.mono hL) fun more => ha _ (hbad more)

/-- An end behind some consumed symbols is an end from before them. -/
theorem Ends.behind {L : List Token → β → Prop} {amiss : List Token → Prop} {x : Outcome β}
    {ws rest : List Symbol} (hss : ss = ws ++ rest)
    (h : Ends ending rest (fun v b => L (ws.map token ++ v) b)
      (fun v => amiss (ws.map token ++ v)) x) : Ends ending ss L amiss x := by
  subst hss
  have begins : ∀ {v}, Begins (fun v b => L (ws.map token ++ v) b) v →
      Begins L (ws.map token ++ v) := by
    intro v h
    obtain ⟨more, b, hb⟩ := h
    exact ⟨more, b, by rwa [List.append_assoc]⟩
  cases h with
  | reads _ hss hr hb =>
      refine .reads _ (by rw [hss, ← List.append_assoc]) hr ?_
      rwa [List.map_append]
  | unrecognized he hw =>
      refine .unrecognized he ?_
      rw [List.map_append]
      exact hw.imp_left begins
  | unexpected _ hc hss hr hw =>
      refine .unexpected _ hc (by rw [hss, ← List.append_assoc]) hr ?_
      rw [List.map_append]
      exact hw.imp_left begins
  | misnamed _ hc hss hfour hr hw hbad =>
      refine .misnamed _ hc (by rw [hss, ← List.append_assoc]) hfour hr ?_ ?_
      · rw [List.map_append]
        exact begins hw
      · intro more
        rw [List.map_append, List.append_assoc]
        exact hbad more

namespace Sound

variable {L L' : List Token → β → Prop} {amiss amiss' : List Token → Prop}

theorem mono {p : ReadM β} (h : Sound p L amiss) (hL : ∀ w b, L w b → L' w b)
    (ha : ∀ w, amiss w → amiss' w) : Sound p L' amiss' where
  live := by
    obtain ⟨w, b, hb⟩ := h.live
    exact ⟨w, b, hL w b hb⟩
  ends hr := (h.ends hr).mono hL ha

/-- Where nothing can be amiss, anything may be taken as amiss. -/
theorem of_fine {p : ReadM β} (h : Sound p L Fine) : Sound p L amiss :=
  h.mono (fun _ _ => id) (fun _ => False.elim)

theorem pure {b : β} (h : L [] b) : Sound (pure b) L amiss where
  live := ⟨[], b, h⟩
  ends hr := .reads [] rfl hr h

/-- What follows a bind has to be sound for what can stand behind the tokens
consumed so far. -/
theorem bind {p : ReadM β} {f : β → ReadM γ} {M : List Token → γ → Prop} (hp : Sound p L amiss)
    (hf : ∀ w b, L w b → Sound (f b) (fun v c => M (w ++ v) c) (fun v => amiss (w ++ v))) :
    Sound (p >>= f) M amiss where
  live := by
    obtain ⟨w, b, hb⟩ := hp.live
    obtain ⟨v, c, hc⟩ := (hf w b hb).live
    exact ⟨w ++ v, c, hc⟩
  ends := by
    intro ending r ss hr
    have begins : ∀ {w}, Begins L w → Begins M w := by
      intro w h
      obtain ⟨more, b, hb⟩ := h
      obtain ⟨v, c, hc⟩ := (hf _ b hb).live
      exact ⟨more ++ v, c, by rwa [← List.append_assoc]⟩
    have hpr := hp.ends hr
    show Ends ending ss M amiss (EStateM.bind p f r)
    unfold EStateM.bind
    cases heq : p r with
    | ok b r' =>
        rw [heq] at hpr
        cases hpr with
        | reads _ hss hr' hb => exact ((hf _ b hb).ends hr').behind hss
    | error fault r' =>
        rw [heq] at hpr
        cases hpr with
        | unrecognized he hw => exact .unrecognized he (hw.imp_left begins)
        | unexpected _ hc hss hr' hw => exact .unexpected _ hc hss hr' (hw.imp_left begins)
        | misnamed _ hc hss hfour hr' hw hbad => exact .misnamed _ hc hss hfour hr' (begins hw) hbad

/-- A look at the reader consumes nothing. -/
theorem get_bind {f : Reader → ReadM γ} {M : List Token → γ → Prop}
    (hf : ∀ r, Sound (f r) M amiss) : Sound (get >>= f) M amiss where
  live := (hf ⟨.atEnd 0, [], .complete 0, none, 0⟩).live
  ends {_ r _} hr := (hf r).ends hr

/-- The token that expecting a symbol consumes, and its text. -/
def Expected (kind : Kind) (wanted : Wanted) (w : List Token) (text : String) : Prop :=
  ∃ t : Token, w = [t] ∧ t.fits kind wanted = true ∧ t.text.getD "" = text

/-- The token that accepting a symbol may consume, and its text. -/
def Accepted (kind : Kind) (wanted : Wanted) (w : List Token) : Option String → Prop
  | none => w = []
  | some text => Expected kind wanted w text

theorem accept {kind : Kind} (wanted : Wanted) (hkind : kind ≠ .endOfSource) :
    Sound (Reader.accept kind wanted) (Accepted kind wanted) Fine where
  live := ⟨[], none, rfl⟩
  ends := by
    intro ending r ss hr
    obtain ⟨s, rest, rfl⟩ := hr.exists_cons
    rcases hr.accept wanted hkind with ⟨_, heq⟩ |
      ⟨hfits, ⟨r', heq, hr'⟩ | ⟨hrest, offset, r', he, heq⟩⟩
    · rw [heq]
      exact .reads [] rfl hr rfl
    · rw [heq]
      exact .reads [s] rfl hr' ⟨_, rfl, hfits, rfl⟩
    · rw [heq, hrest]
      exact .unrecognized he (.inl ⟨[], some _, _, rfl, hfits, rfl⟩)

theorem expect {kind : Kind} (wanted : Wanted) (hkind : kind ≠ .endOfSource)
    (hlive : ∃ t : Token, t.fits kind wanted = true) :
    Sound (Reader.expect kind wanted) (Expected kind wanted) Fine where
  live := by
    obtain ⟨t, ht⟩ := hlive
    exact ⟨[t], _, t, rfl, ht, rfl⟩
  ends := by
    intro ending r ss hr
    obtain ⟨s, rest, rfl⟩ := hr.exists_cons
    rcases hr.expect wanted hkind with ⟨_, cause, hcause, heq⟩ |
      ⟨hfits, ⟨r', heq, hr'⟩ | ⟨hrest, offset, r', he, heq⟩⟩
    · obtain ⟨t, ht⟩ := hlive
      rw [heq]
      exact .unexpected [] hcause rfl hr (.inl ⟨[t], _, t, rfl, ht, rfl⟩)
    · rw [heq]
      exact .reads [s] rfl hr' ⟨_, rfl, hfits, rfl⟩
    · rw [heq, hrest]
      exact .unrecognized he (.inl ⟨[], _, _, rfl, hfits, rfl⟩)

end Sound

end Reader

end AlgoBox
