import AlgoBox.Proofs.Lockstep
import AlgoBox.Proofs.Parsing
import AlgoBox.Proofs.Seams

/-!
# Spans lie in the source

The spans of a tree that is read end where they begin or behind it, and not behind the
end of the source. So what is made of the spans of a tree depends on such spans only
(`map_eq_of_read`). A run of the grammar is compared with itself, in the correspondence
in which an offset meets itself if it lies in the source.
-/

namespace AlgoBox

open AlgoBox.Symbol Reader

variable {γ : Type}

/-- A reader none of whose places lies behind an offset. -/
structure Reader.Within (k : Nat) (r : Reader) : Prop where
  symbols : ∀ x ∈ r.current :: r.upcoming, x.start ≤ k ∧ x.stop ≤ k
  ending : r.ending.offset ≤ k
  lastEnd : r.lastEnd ≤ k

theorem Reader.Within.atEnd {k length lastEnd : Nat} {lastText : Option String} (h : length ≤ k)
    (hlast : lastEnd ≤ k) : Within k ⟨.atEnd length, [], .complete length, lastText, lastEnd⟩ where
  symbols := by simpa [Symbol.atEnd] using h
  ending := h
  lastEnd := hlast

theorem Reader.Within.consume {k : Nat} {r : Reader} (h : r.Within k) :
    (∃ text s, Reader.consume r = .ok text s ∧ s.Within k) ∨
    ∃ fault s, Reader.consume r = .error fault s ∧ fault.offset ≤ k := by
  obtain ⟨current, upcoming, ending, lastText, lastEnd⟩ := r
  obtain ⟨hsymbols, hending, -⟩ := h
  obtain ⟨⟨-, hstop⟩, hupcoming⟩ := List.forall_mem_cons.1 hsymbols
  cases upcoming with
  | cons s rest => exact .inl ⟨_, _, rfl, hupcoming, hending, hstop⟩
  | nil =>
      cases ending with
      | complete length => exact .inl ⟨_, _, rfl, .atEnd hending hstop⟩
      | unrecognized offset => exact .inr ⟨_, _, rfl, hending⟩

/-- A reader and itself, for functions that agree on the spans up to an offset. -/
def Correspondence.within (k : Nat) (f g : Grammar.Span → γ)
    (h : ∀ start stop, start ≤ stop → stop ≤ k → f ⟨start, stop⟩ = g ⟨start, stop⟩) :
    Correspondence where
  Place := γ
  first := f
  second := g
  Meets offset offset' := offset = offset' ∧ offset ≤ k
  Rel r r' := r = r' ∧ r.Within k
  Left _ := False
  label_eq hr := by rw [hr.1]
  start_meets hr := ⟨by rw [hr.1], (hr.2.symbols _ List.mem_cons_self).1⟩
  span_eq := by
    rintro r _ start _ ⟨rfl, hr⟩ ⟨rfl, hstart⟩
    exact h _ _ (Nat.le_max_left _ _) (Nat.max_le.2 ⟨hstart, hr.lastEnd⟩)
  consume := by
    rintro r _ ⟨rfl, hr⟩
    rcases hr.consume with ⟨text, s, hs, hwithin⟩ | ⟨fault, s, hs, hle⟩
    · exact .inr (.inl ⟨text, s, s, hs, hs, rfl, hwithin⟩)
    · exact .inr (.inr ⟨fault, fault, s, s, hs, hs, rfl, rfl, hle⟩)
  left_end := left_end_of_never
  same := False.elim

theorem Reader.Within.of_ofSource {source : List Char} {r : Reader}
    (h : ofSource source = .ok r) : r.Within source.length := by
  obtain ⟨hsymbols, hending⟩ := within_scanFrom 0 source
  rw [Nat.zero_add] at hsymbols hending
  unfold ofSource scan at h
  generalize scanFrom Recognizer.table 0 source = cut at *
  obtain ⟨symbols, ending⟩ := cut
  cases symbols with
  | cons s rest =>
      cases h
      refine ⟨fun x hx => ?_, hending, Nat.zero_le _⟩
      exact ⟨Nat.le_trans (hsymbols x hx).1 (hsymbols x hx).2, (hsymbols x hx).2⟩
  | nil =>
      cases ending with
      | unrecognized offset => cases h
      | complete length =>
          cases h
          exact .atEnd hending (Nat.zero_le _)

/-- What is made of the spans of a tree depends on those that lie in the source only. -/
theorem map_eq_of_read {source : List Char} {r : Reader} {node : Node Grammar.Span}
    (hr : ofSource source = .ok r) (hread : Grammar.read r = .ok node) {f g : Grammar.Span → γ}
    (h : ∀ start stop, start ≤ stop → stop ≤ source.length → f ⟨start, stop⟩ = g ⟨start, stop⟩) :
    node.map f = node.map g := by
  have hcalls := Grammar.bounded_alike (C := .within source.length f g h)
    (Nat.le_refl r.remaining) (Nat.le_refl r.remaining)
  have hends := Grammar.document_ends hcalls ⟨rfl, Nat.zero_le _⟩ ⟨rfl, Within.of_ofSource hr⟩
    (Nat.le_refl _)
  rw [Grammar.Calls.bounded_document] at hends
  unfold Grammar.read at hread
  cases hdocument : Grammar.document r.remaining r with
  | error fault s =>
      rw [hdocument] at hread
      cases hread
  | ok tree s =>
      rw [hdocument] at hread hends
      cases hread
      cases hends with
      | ok hagree _ _ => exact hagree
      | left hleft => exact hleft.elim

end AlgoBox
