import AlgoBox.Node.Grammar

/-!
# Runs of a reader

What two computations in a row come to on one reader, and computations that have nothing to do
there (`Reader.Idle`).
-/

namespace AlgoBox

open AlgoBox.Symbol Reader

variable {β γ : Type}

section Runs

variable {p : ReadM β} {f : β → ReadM γ} {r s : Reader} {b : β} {c : γ}

theorem bind_ok (h : p r = .ok b s) : (p >>= f) r = f b s := by
  show EStateM.bind p f r = _
  unfold EStateM.bind
  rw [h]

theorem bind_error {fault : Fault} (h : p r = .error fault s) : (p >>= f) r = .error fault s := by
  show EStateM.bind p f r = _
  unfold EStateM.bind
  rw [h]

theorem bind_congr_apply {q : ReadM β} (h : p r = q s) : (p >>= f) r = (q >>= f) s := by
  show EStateM.bind p f r = EStateM.bind q f s
  unfold EStateM.bind
  rw [h]

theorem exists_of_bind_ok (h : (p >>= f) r = .ok c s) : ∃ b t, p r = .ok b t ∧ f b t = .ok c s := by
  change EStateM.bind p f r = _ at h
  unfold EStateM.bind at h
  cases hb : p r with
  | ok b t =>
      rw [hb] at h
      exact ⟨b, t, rfl, h⟩
  | error fault t =>
      rw [hb] at h
      cases h

/-- A symbol is accepted if it matches. -/
theorem accept_eq (kind : Kind) (wanted : Wanted) (r : Reader) :
    accept kind wanted r =
      if r.holds kind wanted then (do return some (← consume) : ReadM (Option String)) r
      else .ok none r := by
  show (if r.holds kind wanted then _ else _ : ReadM (Option String)) r = _
  split <;> rfl

/-- What is not accepted stays. -/
theorem eq_of_accept_none {kind : Kind} {wanted : Wanted}
    (h : accept kind wanted r = .ok none s) : s = r := by
  rw [accept_eq] at h
  split at h
  · obtain ⟨text, t, -, h⟩ := exists_of_bind_ok h
    cases h
  · cases h
    rfl

end Runs

namespace Reader

/-- The computation consumes nothing and gives `b`. -/
def Idle (r : Reader) (b : β) (p : ReadM β) : Prop := p r = .ok b r

namespace Idle

variable {r : Reader} {b : β} {c : γ} {p : ReadM β} {f : β → ReadM γ}

theorem pure (b : β) : Idle r b (pure b) := rfl

theorem bind (hp : Idle r b p) (hf : Idle r c (f b)) : Idle r c (p >>= f) := (bind_ok hp).trans hf

theorem get_bind {f : Reader → ReadM γ} (hf : Idle r c (f r)) : Idle r c (get >>= f) := hf

theorem accept {kind : Kind} {wanted : Wanted} (h : ¬r.holds kind wanted = true) :
    Idle r none (Reader.accept kind wanted) := by
  show Reader.accept kind wanted r = _
  rw [accept_eq, if_neg h]

end Idle

end Reader

end AlgoBox
