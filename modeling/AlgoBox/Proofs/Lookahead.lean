import AlgoBox.Proofs.Token

/-!
# Looking ahead

The symbols in front of a reader, and what accepting and expecting a symbol can
do about them: one inversion lemma for each (`Ahead.consume`, `Ahead.accept`,
`Ahead.expect`), so that no later proof opens a reader.

`Shrinks` is the fact that a computation never moves backwards. It is a class,
so that it is found for everything that is put together by binds.
-/

namespace AlgoBox

open AlgoBox.Symbol

namespace Fault.Cause

/-- The cause is that another symbol was expected. -/
def IsUnexpected : Fault.Cause → Prop
  | wrongKind .. | wrongText .. => True
  | _ => False

/-- The cause is the name of an environment. -/
def Misnames (name : String) : Fault.Cause → Prop
  | unknownEnvironment actual | misplacedEnvironment actual => actual = name
  | _ => False

end Fault.Cause

namespace Reader

/-- The symbols in front of a reader, from the current one on. A reader at the
end of its source sees that end again and again. -/
inductive Ahead (ending : Ending) : Reader → List Symbol → Prop
  | atEnd {length : Nat} {lastText : Option String} {lastEnd : Nat} :
      ending = .complete length →
      Ahead ending ⟨.atEnd length, [], ending, lastText, lastEnd⟩ [.atEnd length]
  | inside {s : Symbol} {rest : List Symbol} {lastText : Option String} {lastEnd : Nat} :
      (∀ x ∈ s :: rest, x.Proper) →
      Ahead ending ⟨s, rest, ending, lastText, lastEnd⟩ (s :: rest ++ ending.symbols)

variable {β γ : Type} {ending : Ending} {r : Reader} {s : Symbol} {ss : List Symbol}

theorem Ahead.exists_cons (h : Ahead ending r ss) : ∃ s rest, ss = s :: rest := by
  cases h with
  | atEnd => exact ⟨_, _, rfl⟩
  | inside => exact ⟨_, _, rfl⟩

theorem Ahead.current_eq (h : Ahead ending r (s :: ss)) : r.current = s := by
  cases h <;> rfl

/-- Only a source that is cut to its end has the end of the source ahead. -/
theorem Ahead.complete_of_end (h : Ahead ending r (s :: ss)) (hs : s.token = .endOfSource) :
    ∃ length, ending = .complete length := by
  cases h with
  | atEnd hending => exact ⟨_, hending⟩
  | inside hproper => exact absurd hs (hproper s List.mem_cons_self).not_end

theorem Ahead.eq_atEnd (h : Ahead ending r (s :: ss)) (hs : s.token = .endOfSource) :
    ∃ length, s = .atEnd length := by
  cases h with
  | atEnd => exact ⟨_, rfl⟩
  | inside hproper => exact absurd hs (hproper s List.mem_cons_self).not_end

/-- The text of the current symbol is that of its token. -/
theorem Ahead.text_eq (h : Ahead ending r (s :: ss)) : s.text = s.token.text := by
  cases h with
  | atEnd => rfl
  | inside hproper => exact (hproper s List.mem_cons_self).text_eq

/-- The symbols in front of a reader are determined by the reader. -/
theorem Ahead.unique {ss' : List Symbol} (h : Ahead ending r ss) (h' : Ahead ending r ss') :
    ss = ss' := by
  cases h with
  | atEnd =>
      cases h' with
      | atEnd => rfl
      | inside hproper => exact absurd rfl (hproper _ List.mem_cons_self).not_end
  | inside hproper =>
      cases h' with
      | atEnd => exact absurd rfl (hproper _ List.mem_cons_self).not_end
      | inside => rfl

/-- Only the last symbol ahead is the end of the source, so the symbols that
remain are those that are not. -/
theorem Ahead.remaining_eq (h : Ahead ending r ss) :
    r.remaining = (ss.map token).countP (· ≠ .endOfSource) := by
  have inside : ∀ l : List Symbol, (∀ x ∈ l, x.Proper) →
      (l.map token).countP (· ≠ .endOfSource) = l.length := by
    intro l hl
    rw [List.countP_eq_length.2, List.length_map]
    intro t ht
    obtain ⟨x, hx, rfl⟩ := List.mem_map.1 ht
    simpa using (hl x hx).not_end
  cases h with
  | atEnd => rfl
  | inside hproper =>
      rename_i s rest lastText lastEnd
      rw [List.map_append, List.countP_append, inside _ hproper]
      unfold remaining
      rw [if_neg (hproper s List.mem_cons_self).kind_ne]
      cases ending <;> rfl

/-- Whether the current symbol matches is a matter of its token. -/
theorem Ahead.holds_eq (h : Ahead ending r (s :: ss)) (kind : Kind) (wanted : Wanted) :
    r.holds kind wanted = s.token.fits kind wanted := by
  unfold holds Token.fits
  rw [h.current_eq, kind_token, h.text_eq]

/-- Consuming the current symbol steps to the next one, stays at the end of the
source, or fails because no symbol can be recognized behind it. -/
theorem Ahead.consume (h : Ahead ending r (s :: ss)) :
    (s.token ≠ .endOfSource ∧
      ∃ r', Reader.consume r = .ok (s.token.text.getD "") r' ∧ Ahead ending r' ss) ∨
    (s.token = .endOfSource ∧ ss = [] ∧
      ∃ r', Reader.consume r = .ok "" r' ∧ Ahead ending r' [s]) ∨
    (s.token ≠ .endOfSource ∧ ss = [] ∧ ∃ offset r', ending = .unrecognized offset ∧
      Reader.consume r = .error ⟨.unrecognizable, offset⟩ r') := by
  cases h with
  | atEnd hending =>
      subst hending
      exact .inr (.inl ⟨rfl, rfl, _, rfl, .atEnd rfl⟩)
  | inside hproper =>
      rename_i rest lastText lastEnd
      have hs := hproper s List.mem_cons_self
      cases rest with
      | cons next rest =>
          refine .inl ⟨hs.not_end, _, by rw [← hs.text_eq]; rfl, .inside ?_⟩
          exact fun x hx => hproper x (List.mem_cons_of_mem _ hx)
      | nil =>
          cases ending with
          | complete length =>
              exact .inl ⟨hs.not_end, _, by rw [← hs.text_eq]; rfl, .atEnd rfl⟩
          | unrecognized offset =>
              exact .inr (.inr ⟨hs.not_end, rfl, offset, _, rfl, rfl⟩)

/-- A symbol of a kind other than the end that fits is consumed for good. -/
theorem Ahead.consume_fitting {kind : Kind} {wanted : Wanted} (hkind : kind ≠ .endOfSource)
    (h : Ahead ending r (s :: ss)) (hfits : s.token.fits kind wanted = true) :
    (∃ r', Reader.consume r = .ok (s.token.text.getD "") r' ∧ Ahead ending r' ss) ∨
    (ss = [] ∧ ∃ offset r', ending = .unrecognized offset ∧
      Reader.consume r = .error ⟨.unrecognizable, offset⟩ r') := by
  rcases h.consume with ⟨_, hok⟩ | ⟨hend, _⟩ | ⟨_, herror⟩
  · exact .inl hok
  · rw [hend] at hfits
    simp only [Token.fits, Bool.and_eq_true] at hfits
    exact absurd (of_decide_eq_true hfits.1).symm hkind
  · exact .inr herror

/-- What accepting a symbol can do. -/
theorem Ahead.accept {kind : Kind} (wanted : Wanted) (hkind : kind ≠ .endOfSource)
    (h : Ahead ending r (s :: ss)) :
    (s.token.fits kind wanted = false ∧ Reader.accept kind wanted r = .ok none r) ∨
    (s.token.fits kind wanted = true ∧
      ((∃ r', Reader.accept kind wanted r = .ok (some (s.token.text.getD "")) r' ∧
        Ahead ending r' ss) ∨
      (ss = [] ∧ ∃ offset r', ending = .unrecognized offset ∧
        Reader.accept kind wanted r = .error ⟨.unrecognizable, offset⟩ r'))) := by
  have hrun : Reader.accept kind wanted r =
      if s.token.fits kind wanted then
        EStateM.bind Reader.consume (fun text => pure (some text)) r
      else .ok none r := by
    rw [← h.holds_eq]
    show (if r.holds kind wanted then _ else _ : ReadM (Option String)) r = _
    split <;> rfl
  cases hfits : s.token.fits kind wanted with
  | false =>
      rw [hrun, hfits]
      exact .inl ⟨rfl, rfl⟩
  | true =>
      rw [hrun, hfits, if_pos rfl]
      refine .inr ⟨rfl, ?_⟩
      unfold EStateM.bind
      rcases h.consume_fitting hkind hfits with ⟨r', heq, hr'⟩ | ⟨hss, offset, r', he, heq⟩
      · exact .inl ⟨r', by rw [heq]; rfl, hr'⟩
      · exact .inr ⟨hss, offset, r', he, by rw [heq]⟩

/-- What expecting a symbol can do. -/
theorem Ahead.expect {kind : Kind} (wanted : Wanted) (hkind : kind ≠ .endOfSource)
    (h : Ahead ending r (s :: ss)) :
    (s.token.fits kind wanted = false ∧ ∃ cause : Fault.Cause, cause.IsUnexpected ∧
      Reader.expect kind wanted r = .error ⟨cause, s.start⟩ r) ∨
    (s.token.fits kind wanted = true ∧
      ((∃ r', Reader.expect kind wanted r = .ok (s.token.text.getD "") r' ∧
        Ahead ending r' ss) ∨
      (ss = [] ∧ ∃ offset r', ending = .unrecognized offset ∧
        Reader.expect kind wanted r = .error ⟨.unrecognizable, offset⟩ r'))) := by
  have hrun : Reader.expect kind wanted r =
      if s.kind ≠ kind then .error ⟨.wrongKind kind s.kind, s.start⟩ r
      else if !wanted.admits s.token.text then .error ⟨.wrongText wanted s.text, s.start⟩ r
      else Reader.consume r := by
    rw [← h.text_eq, ← h.current_eq]
    show (if r.current.kind ≠ kind then _ else _ : ReadM String) r = _
    split
    · rfl
    · split <;> rfl
  by_cases hk : s.kind = kind
  · cases hw : wanted.admits s.token.text with
    | false =>
        refine .inl ⟨by simp [Token.fits, hw], .wrongText wanted s.text, trivial, ?_⟩
        rw [hrun, hw]
        simp [hk]
    | true =>
        have hfits : s.token.fits kind wanted = true := by simp [Token.fits, hw, hk]
        rw [hrun, hw]
        simp only [hk, ne_eq, not_true_eq_false, if_false, Bool.not_true, Bool.false_eq_true]
        exact .inr ⟨hfits, h.consume_fitting hkind hfits⟩
  · refine .inl ⟨by simp [Token.fits, hk], .wrongKind kind s.kind, trivial, ?_⟩
    rw [hrun, if_pos hk]

/-- Expecting the end of the source. -/
theorem Ahead.expect_end (h : Ahead ending r (s :: ss)) :
    (s.token ≠ .endOfSource ∧ ∃ cause : Fault.Cause, cause.IsUnexpected ∧
      Reader.expect .endOfSource .any r = .error ⟨cause, s.start⟩ r) ∨
    (s.token = .endOfSource ∧ ss = [] ∧
      ∃ r', Reader.expect .endOfSource .any r = .ok "" r' ∧ Ahead ending r' [s]) := by
  cases h with
  | atEnd hending =>
      subst hending
      exact .inr ⟨rfl, rfl, _, rfl, .atEnd rfl⟩
  | inside hproper =>
      have hs := hproper s List.mem_cons_self
      refine .inl ⟨hs.not_end, .wrongKind .endOfSource s.kind, trivial, ?_⟩
      show (if s.kind ≠ .endOfSource then _ else _ : ReadM String) _ = _
      rw [if_pos hs.kind_ne]
      rfl

/-- A reader in front of a scan whose symbols are proper. -/
theorem Ahead.of_ofScan {scan : Scan} (hproper : ∀ x ∈ scan.symbols, x.Proper)
    (h : ofScan scan = .ok r) : Ahead scan.ending r scan.stream := by
  obtain ⟨symbols, ending⟩ := scan
  cases symbols with
  | cons s rest =>
      cases h
      exact .inside hproper
  | nil =>
      cases ending with
      | complete length =>
          cases h
          exact .atEnd rfl
      | unrecognized offset => cases h

/-! ## The symbol consumed last -/

/-- A reader that is not used yet tells of no symbol. -/
theorem last_of_ofScan {scan : Scan} (h : ofScan scan = .ok r) :
    r.lastText = none ∧ r.lastEnd = 0 := by
  obtain ⟨symbols, ending⟩ := scan
  cases symbols with
  | cons s rest =>
      cases h
      exact ⟨rfl, rfl⟩
  | nil =>
      cases ending with
      | complete length =>
          cases h
          exact ⟨rfl, rfl⟩
      | unrecognized offset => cases h

theorem last_of_consume {text : String} {r' : Reader} (h : Reader.consume r = .ok text r') :
    r'.lastText = r.current.text ∧ r'.lastEnd = r.current.stop := by
  obtain ⟨current, upcoming, ending, lastText, lastEnd⟩ := r
  cases upcoming with
  | cons next rest =>
      cases h
      exact ⟨rfl, rfl⟩
  | nil =>
      cases ending with
      | complete length =>
          cases h
          exact ⟨rfl, rfl⟩
      | unrecognized offset => cases h

/-! ## No computation moves backwards -/

/-- The result of a computation on a reader. -/
abbrev Outcome (β : Type) := EStateM.Result Fault Reader β

theorem discard_eq (p : ReadM β) : discard p = p >>= fun _ => pure () := rfl

/-- At most `n` symbols are ahead of where a computation ended, or all symbols
were consumed and none could be recognized behind them. -/
inductive Reaches (ending : Ending) (n : Nat) : Outcome β → Prop
  | ok {b : β} {r : Reader} {ss : List Symbol} : Ahead ending r ss → ss.length ≤ n →
      Reaches ending n (.ok b r)
  | error {fault : Fault} {r : Reader} {ss : List Symbol} : Ahead ending r ss → ss.length ≤ n →
      Reaches ending n (.error fault r)
  | unrecognized {offset : Nat} {r : Reader} : ending = .unrecognized offset →
      Reaches ending n (.error ⟨.unrecognizable, offset⟩ r)

theorem Reaches.mono {n m : Nat} {x : Outcome β} (h : Reaches ending n x) (hle : n ≤ m) :
    Reaches ending m x := by
  cases h with
  | ok ha hn => exact .ok ha (Nat.le_trans hn hle)
  | error ha hn => exact .error ha (Nat.le_trans hn hle)
  | unrecognized he => exact .unrecognized he

/-- A computation that does not move backwards. -/
class Shrinks (p : ReadM β) : Prop where
  reaches : ∀ {ending r ss}, Ahead ending r ss → Reaches ending ss.length (p r)

instance Shrinks.pure (b : β) : Shrinks (pure b : ReadM β) where
  reaches h := .ok h (Nat.le_refl _)

instance Shrinks.throw (fault : Fault) : Shrinks (throw fault : ReadM β) where
  reaches h := .error h (Nat.le_refl _)

instance Shrinks.get : Shrinks (get : ReadM Reader) where
  reaches h := .ok h (Nat.le_refl _)

instance Shrinks.consume : Shrinks Reader.consume where
  reaches := by
    intro ending r ss h
    obtain ⟨s, rest, rfl⟩ := h.exists_cons
    rcases h.consume with ⟨_, r', heq, ha⟩ | ⟨_, rfl, r', heq, ha⟩ | ⟨_, _, o, r', he, heq⟩
    · rw [heq]; exact .ok ha (by simp)
    · rw [heq]; exact .ok ha (by simp)
    · rw [heq]; exact .unrecognized he

instance Shrinks.bind (p : ReadM β) (f : β → ReadM γ) [hp : Shrinks p]
    [hf : ∀ b, Shrinks (f b)] : Shrinks (p >>= f) where
  reaches := by
    intro ending r ss h
    have hpr := hp.reaches h
    show Reaches ending ss.length (EStateM.bind p f r)
    unfold EStateM.bind
    cases heq : p r with
    | ok b r' =>
        rw [heq] at hpr
        cases hpr with
        | ok ha hle => exact ((hf b).reaches ha).mono hle
    | error fault r' =>
        rw [heq] at hpr
        cases hpr with
        | error ha hle => exact .error ha hle
        | unrecognized he => exact .unrecognized he

instance Shrinks.ite (c : Prop) [Decidable c] (p q : ReadM β) [Shrinks p] [Shrinks q] :
    Shrinks (if c then p else q) := by
  split <;> infer_instance

theorem Shrinks.option {f : Option β → ReadM γ} (hnone : Shrinks (f none))
    (hsome : ∀ b, Shrinks (f (some b))) (o : Option β) : Shrinks (f o) := by
  cases o with
  | none => exact hnone
  | some b => exact hsome b

theorem Shrinks.list {f : List β → ReadM γ} (hnil : Shrinks (f []))
    (hcons : ∀ b l, Shrinks (f (b :: l))) (l : List β) : Shrinks (f l) := by
  cases l with
  | nil => exact hnil
  | cons b l => exact hcons b l

theorem Shrinks.pair {δ : Type} {f : β × γ → ReadM δ} (h : ∀ b c, Shrinks (f (b, c))) (p : β × γ) :
    Shrinks (f p) := by
  obtain ⟨b, c⟩ := p
  exact h b c

theorem Shrinks.bind_option {p : ReadM (Option β)} {f : Option β → ReadM γ} [Shrinks p]
    (hnone : Shrinks (f none)) (hsome : ∀ b, Shrinks (f (some b))) : Shrinks (p >>= f) :=
  have := Shrinks.option hnone hsome
  inferInstance

instance Shrinks.accept (kind : Kind) (wanted : Wanted) : Shrinks (Reader.accept kind wanted) := by
  unfold Reader.accept
  infer_instance

instance Shrinks.expect (kind : Kind) (wanted : Wanted) : Shrinks (Reader.expect kind wanted) := by
  unfold Reader.expect
  infer_instance

end Reader

end AlgoBox
