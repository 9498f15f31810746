import AlgoBox.Proofs.Lockstep
import AlgoBox.Proofs.Parsing

/-!
# No production looks at places

Two readers that see symbols of the same kinds and texts are read in the same way,
wherever these symbols stand (`document_blind`): either both give trees that are
equal up to their annotations, or both meet a fault of the same cause. This is the
correspondence in which all offsets meet and nothing of a span is compared.
-/

namespace AlgoBox

open AlgoBox.Symbol

/-- The cut of a source came to its end. -/
def Symbol.Ending.isComplete : Ending → Bool
  | .complete _ => true
  | .unrecognized _ => false

namespace Reader

variable {r r' : Reader}

/-- What of a reader is not a place: the current symbol, those to come, and
whether the end of the source follows them. -/
def seen (r : Reader) : (Kind × Option String) × List (Kind × Option String) × Bool :=
  (r.current.label, r.upcoming.map label, r.ending.isComplete)

theorem remaining_eq_of_seen (h : r.seen = r'.seen) : r.remaining = r'.remaining := by
  have hkind : r.current.kind = r'.current.kind := congrArg (fun seen => seen.1.1) h
  have hlength := congrArg (fun seen => seen.2.1.length) h
  simp only [seen, List.length_map] at hlength
  simp only [remaining, hkind, hlength]

/-- Readers that see the same consume the same, or cannot recognize what is next. -/
theorem consume_of_seen (h : r.seen = r'.seen) :
    (∃ text s s', consume r = .ok text s ∧ consume r' = .ok text s' ∧ s.seen = s'.seen) ∨
    ∃ fault fault' s s', consume r = .error fault s ∧ consume r' = .error fault' s' ∧
      fault.cause = fault'.cause := by
  obtain ⟨⟨kind, text, start, stop⟩, upcoming, ending, lastText, lastEnd⟩ := r
  obtain ⟨⟨kind', text', start', stop'⟩, upcoming', ending', lastText', lastEnd'⟩ := r'
  simp only [seen, label, Prod.mk.injEq] at h
  obtain ⟨⟨rfl, rfl⟩, hupcoming, hending⟩ := h
  cases upcoming with
  | nil =>
      cases upcoming' with
      | cons s' rest' => cases hupcoming
      | nil =>
          -- what is next depends on how the cut of the source ended
          cases ending <;> cases ending' <;> try cases hending
          · exact .inl ⟨_, _, _, rfl, rfl, rfl⟩
          · exact .inr ⟨_, _, _, _, rfl, rfl, rfl⟩
  | cons s rest =>
      cases upcoming' with
      | nil => cases hupcoming
      | cons s' rest' =>
          rw [List.map_cons, List.map_cons, List.cons.injEq] at hupcoming
          exact .inl ⟨_, _, _, rfl, rfl, by simp [seen, hupcoming, hending]⟩

end Reader

/-- Readers that see the same correspond, if places are not compared. -/
def Correspondence.placeless : Correspondence where
  Place := Unit
  first _ := ()
  second _ := ()
  Meets _ _ := True
  Rel r r' := r.seen = r'.seen
  Left _ := False
  label_eq := congrArg Prod.fst
  start_meets _ := trivial
  span_eq _ _ := rfl
  consume h := by
    rcases Reader.consume_of_seen h with hok | ⟨fault, fault', s, s', hs, hs', hcause⟩
    · exact .inr (.inl hok)
    · exact .inr (.inr ⟨fault, fault', s, s', hs, hs', hcause, trivial⟩)
  left_end := left_end_of_never
  same := False.elim

theorem Grammar.document_blind {r r' : Reader} (h : r.seen = r'.seen) {bound : Nat}
    (hbound : r.remaining ≤ bound) :
    Correspondence.placeless.Ends (.node _) (fun _ _ => True) (document bound r)
      (document bound r') :=
  document_ends (bounded_alike hbound hbound) trivial h (Nat.le_refl _)

end AlgoBox
