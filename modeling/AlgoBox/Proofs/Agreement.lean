import AlgoBox.Proofs.Lookahead

/-!
# Agreement

The other direction of reading: what a computation does on symbols that agree
with given tokens. The symbols may stop to agree at some point; up to there the
computation is bound to read the tokens (`Follows`), and beyond it nothing is
said except that it does not return (`Reaches`). With full agreement this is
completeness; with agreement up to some symbol it says that a computation that
stops at that symbol or before was given tokens that it could not follow.
-/

namespace AlgoBox

open AlgoBox.Symbol

/-- The tokens do not start with one that has a property. -/
def NotAhead (P : Token → Prop) (v : List Token) : Prop := ∀ t ∈ v.head?, ¬P t

section NotAhead

variable {P Q : Token → Prop} {t : Token} {v : List Token}

@[simp] theorem notAhead_nil : NotAhead P [] := nofun

@[simp] theorem notAhead_cons : NotAhead P (t :: v) ↔ ¬P t := by
  simp [NotAhead]

theorem NotAhead.mono (h : NotAhead P v) (hQ : ∀ t, Q t → P t) : NotAhead Q v :=
  fun t ht hq => h t ht (hQ t hq)

end NotAhead

namespace Reader

variable {β γ : Type} {ending : Ending} {r r' : Reader} {s : Symbol} {ss : List Symbol}
  {N M n : Nat} {t : Token} {u v w : List Token}

/-- The symbols agree with the tokens, or they do until at most `n` of them are
left. -/
inductive Agrees (n : Nat) : List Symbol → List Token → Prop
  | parted {ss : List Symbol} {w : List Token} : ss.length ≤ n → Agrees n ss w
  | step {s : Symbol} {ss : List Symbol} {w : List Token} :
      Agrees n ss w → Agrees n (s :: ss) (s.token :: w)

theorem agrees_map (n : Nat) (ss : List Symbol) : Agrees n ss (ss.map token) := by
  induction ss with
  | nil => exact .parted (Nat.zero_le n)
  | cons s rest ih => exact .step ih

theorem agrees_append (ws rest : List Symbol) (more : List Token) :
    Agrees rest.length (ws ++ rest) (ws.map token ++ more) := by
  induction ws with
  | nil => exact .parted (Nat.le_refl _)
  | cons s ws ih => exact .step ih

/-- Behind a symbol that is not the end of the source one symbol less remains. -/
theorem Ahead.remaining_succ (h : Ahead ending r (s :: ss)) (h' : Ahead ending r' ss)
    (hs : s.token ≠ .endOfSource) : r'.remaining + 1 = r.remaining := by
  rw [h.remaining_eq, h'.remaining_eq, List.map_cons, List.countP_cons_of_pos (by simpa using hs)]

/-- The number of tokens that are consumed for good. -/
def weight (w : List Token) : Nat := w.countP (· ≠ .endOfSource)

/-- How a computation may end that follows the tokens `w ++ v` through `w`: it
goes as far as the symbols agree, or it reads `w` and gives a wanted result. -/
inductive Keeps (ending : Ending) (n : Nat) (v : List Token) (P : β → Prop) (before used : Nat) :
    Outcome β → Prop
  | leaves {x : Outcome β} : Reaches ending n x → Keeps ending n v P before used x
  | reads {b : β} {r : Reader} {rest : List Symbol} : P b → Ahead ending r rest →
      Agrees n rest v → r.remaining + used ≤ before → Keeps ending n v P before used (.ok b r)

/-- On symbols that agree with `w ++ v`, of which at most `N` remain, a
computation follows the tokens through `w`. -/
structure Follows (N : Nat) (p : ReadM β) (w v : List Token) (P : β → Prop) : Prop where
  keeps : ∀ {ending n r ss}, Ahead ending r ss → r.remaining ≤ N → Agrees n ss (w ++ v) →
    Keeps ending n v P r.remaining (weight w) (p r)

/-- The current symbol is the token that is next, or the agreement is over. -/
theorem Agrees.cons_inv (h : Agrees n (s :: ss) (t :: w)) :
    (s :: ss).length ≤ n ∨ s.token = t ∧ Agrees n ss w := by
  cases h with
  | parted hle => exact .inl hle
  | step h => exact .inr ⟨rfl, h⟩

namespace Follows

variable {P : β → Prop} {Q : γ → Prop} {p : ReadM β} {f : β → ReadM γ}

theorem mono {P' : β → Prop} (h : Follows N p w v P) (hN : M ≤ N) (hP : ∀ b, P b → P' b) :
    Follows M p w v P' where
  keeps := by
    intro ending n r ss hr hM hagrees
    have hkeeps := h.keeps hr (Nat.le_trans hM hN) hagrees
    generalize p r = x at hkeeps
    cases hkeeps with
    | leaves hreaches => exact .leaves hreaches
    | reads hb hr' hagrees' hused => exact .reads (hP _ hb) hr' hagrees' hused

theorem pure {b : β} (h : P b) : Follows N (pure b) [] v P where
  keeps hr _ hagrees := .reads h hr hagrees (Nat.le_refl _)

/-- Where nothing remains, nothing can be read. -/
theorem exhausted {b : β} (h : w = [] → P b) (hw : NotAhead (· = .endOfSource) w) :
    Follows 0 (Pure.pure b) w v P := by
  cases w with
  | nil => exact pure (h rfl)
  | cons t w =>
      refine ⟨?_⟩
      intro ending n r ss hr hN hagrees
      obtain ⟨s, rest, rfl⟩ := hr.exists_cons
      rcases hagrees.cons_inv with hle | ⟨rfl, -⟩
      · exact .leaves (.ok hr hle)
      · -- a symbol is ahead that is not the end, so something remains
        have hpos : 0 < r.remaining := by
          rw [hr.remaining_eq, List.map_cons,
            List.countP_cons_of_pos (by simpa using notAhead_cons.1 hw)]
          exact Nat.succ_pos _
        omega

/-- Computations in a row. What is consumed by the first may be counted for the
second. -/
theorem bind (hp : Follows N p u (w ++ v) P) (hN : N ≤ M + weight u)
    (hf : ∀ b, P b → Follows M (f b) w v Q)
    [i : ∀ b, Shrinks (f b)] :
    Follows N (p >>= f) (u ++ w) v Q where
  keeps := by
    intro ending n r ss hr hM hagrees
    rw [List.append_assoc] at hagrees
    show Keeps ending n v Q r.remaining _ (EStateM.bind p f r)
    unfold EStateM.bind
    have hkeeps := hp.keeps hr hM hagrees
    cases heq : p r with
    | error fault r' =>
        rw [heq] at hkeeps
        cases hkeeps with
        | leaves hreaches =>
            cases hreaches with
            | error hr' hle => exact .leaves (.error hr' hle)
            | unrecognized he => exact .leaves (.unrecognized he)
    | ok b r' =>
        rw [heq] at hkeeps
        cases hkeeps with
        | leaves hreaches =>
            cases hreaches with
            | ok hr' hle =>
                -- the agreement is lost already, and `f b` does not move back into it
                exact .leaves (((i b).reaches hr').mono hle)
        | reads hb hr' hagrees' hused =>
            have hkeeps' := (hf b hb).keeps hr' (by omega) hagrees'
            have hsum : weight (u ++ w) = weight u + weight w := List.countP_append
            show Keeps ending n v Q r.remaining _ (f b r')
            generalize f b r' = x at hkeeps'
            cases hkeeps' with
            | leaves hreaches => exact .leaves hreaches
            | reads hc hr'' hagrees'' hused' => exact .reads hc hr'' hagrees'' (by omega)

/-- A result that is only turned into another one. -/
theorem map {g : β → γ} (hp : Follows N p w v P) (hg : ∀ b, P b → Q (g b)) :
    Follows N (p >>= fun b => Pure.pure (g b)) w v Q := by
  have h : Follows N (p >>= fun b => Pure.pure (g b)) (w ++ []) v Q :=
    bind hp (Nat.le_add_right N _) fun b hb => pure (hg b hb)
  rwa [List.append_nil] at h

/-- There is a result, and it has a property. -/
def Found (P : β → Prop) (o : Option β) : Prop := ∃ b, o = some b ∧ P b

theorem bind_some {p : ReadM (Option β)} {f : Option β → ReadM γ}
    (hp : Follows N p u (w ++ v) (Found P)) (hN : N ≤ M + weight u)
    (hf : ∀ b, P b → Follows M (f (some b)) w v Q)
    [i : Shrinks (f none)] [j : ∀ b, Shrinks (f (some b))] :
    Follows N (p >>= f) (u ++ w) v Q := by
  have := Shrinks.option i j
  refine bind hp hN ?_
  intro b h
  obtain ⟨b, rfl, hb⟩ := h
  exact hf b hb

theorem bind_none {p : ReadM (Option β)} {f : Option β → ReadM γ}
    (hp : Follows N p [] (w ++ v) (· = none)) (hf : Follows N (f none) w v Q)
    [i : Shrinks (f none)] [j : ∀ b, Shrinks (f (some b))] : Follows N (p >>= f) w v Q := by
  have := Shrinks.option i j
  refine bind hp (Nat.le_add_right _ _) ?_
  intro b hb
  subst hb
  exact hf

/-- A look at the reader consumes nothing. -/
theorem get_bind {f : Reader → ReadM γ} (hf : ∀ r, Follows N (f r) w v Q) :
    Follows N (get >>= f) w v Q where
  keeps {_ _ r _} hr hN hagrees := (hf r).keeps hr hN hagrees

/-- Consuming the token that is next. -/
theorem keeps_consumed {x : Outcome β} {b : β} (hb : P b) (hr : Ahead ending r (s :: ss))
    (hs : s.token ≠ .endOfSource) (hagrees : Agrees n ss v)
    (h : (∃ r', x = .ok b r' ∧ Ahead ending r' ss) ∨
      (ss = [] ∧ ∃ offset r', ending = .unrecognized offset ∧
        x = .error ⟨.unrecognizable, offset⟩ r')) :
    Keeps ending n v P r.remaining (weight [s.token]) x := by
  rcases h with ⟨r', rfl, hr'⟩ | ⟨-, offset, r', he, rfl⟩
  · refine .reads hb hr' hagrees ?_
    have hweight : weight [s.token] = 1 := by simpa [weight] using hs
    have hsucc := hr.remaining_succ hr' hs
    omega
  · exact .leaves (.unrecognized he)

theorem ne_endOfSource {kind : Kind} {wanted : Wanted} (hkind : kind ≠ .endOfSource)
    (hfits : t.fits kind wanted = true) : t ≠ .endOfSource := by
  intro heq
  subst heq
  simp only [Token.fits, Bool.and_eq_true, decide_eq_true_eq] at hfits
  exact hkind hfits.1.symm

/-- A token that fits is accepted. -/
theorem accept {kind : Kind} {wanted : Wanted} (hkind : kind ≠ .endOfSource)
    (hfits : t.fits kind wanted = true) :
    Follows N (Reader.accept kind wanted) [t] v (Found (· = t.text.getD "")) where
  keeps := by
    intro ending n r ss hr _ hagrees
    obtain ⟨s, rest, rfl⟩ := hr.exists_cons
    rcases hagrees.cons_inv with hle | ⟨rfl, hnext⟩
    · exact .leaves ((Shrinks.reaches hr).mono hle)
    · rcases hr.accept wanted hkind with ⟨hno, _⟩ | ⟨_, hdone⟩
      · rw [hfits] at hno
        cases hno
      · exact keeps_consumed ⟨_, rfl, rfl⟩ hr (ne_endOfSource hkind hfits) hnext hdone

/-- No token is accepted where none fits. -/
theorem accept_none {kind : Kind} {wanted : Wanted} (hkind : kind ≠ .endOfSource)
    (hno : NotAhead (fun t => t.fits kind wanted = true) v) :
    Follows N (Reader.accept kind wanted) [] v (· = none) where
  keeps := by
    intro ending n r ss hr _ hagrees
    obtain ⟨s, rest, rfl⟩ := hr.exists_cons
    cases hagrees with
    | parted hle => exact .leaves ((Shrinks.reaches hr).mono hle)
    | step hagrees =>
        rcases hr.accept wanted hkind with ⟨_, heq⟩ | ⟨hfits, _⟩
        · rw [heq]
          exact .reads rfl hr (.step hagrees) (Nat.le_refl _)
        · exact absurd hfits (notAhead_cons.1 hno)

/-- A token that fits meets what is expected. -/
theorem expect {kind : Kind} {wanted : Wanted} (hkind : kind ≠ .endOfSource)
    (hfits : t.fits kind wanted = true) :
    Follows N (Reader.expect kind wanted) [t] v (· = t.text.getD "") where
  keeps := by
    intro ending n r ss hr _ hagrees
    obtain ⟨s, rest, rfl⟩ := hr.exists_cons
    rcases hagrees.cons_inv with hle | ⟨rfl, hnext⟩
    · exact .leaves ((Shrinks.reaches hr).mono hle)
    · rcases hr.expect wanted hkind with ⟨hno, _⟩ | ⟨_, hdone⟩
      · rw [hfits] at hno
        cases hno
      · exact keeps_consumed rfl hr (ne_endOfSource hkind hfits) hnext hdone

/-- The end of the source meets what is expected, and stays ahead. -/
theorem expect_end :
    Follows N (Reader.expect .endOfSource .any) [] [.endOfSource] fun _ => True where
  keeps := by
    intro ending n r ss hr _ hagrees
    obtain ⟨s, rest, rfl⟩ := hr.exists_cons
    rcases hagrees.cons_inv with hle | ⟨hs, hagrees⟩
    · exact .leaves ((Shrinks.reaches hr).mono hle)
    · rcases hr.expect_end with ⟨hno, _⟩ | ⟨_, rfl, r', heq, hr'⟩
      · exact absurd hs hno
      · rw [heq]
        refine .reads trivial hr' ?_ ?_
        · rw [← hs]
          exact .step hagrees
        · rw [hr.remaining_eq, hr'.remaining_eq]
          exact Nat.le_refl _

end Follows

end Reader

end AlgoBox
