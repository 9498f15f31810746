import AlgoBox.Proofs.Scanning

/-!
# Cutting two texts behind each other

A symbol depends on the text from its start on, and on where that is only for its
place (`scanFrom_move`). So the cut of a text with another one behind it is the cut of
the first with that of the second, moved, behind it (`scan_append`), unless the last
symbol of the first text goes on in the second.
-/

namespace AlgoBox

open AlgoBox.Symbol Text

/-! ## Moving symbols -/

namespace Symbol

/-- The symbol in a source with `k` more characters in front of it. -/
def move (k : Nat) (s : Symbol) : Symbol := { s with start := s.start + k, stop := s.stop + k }

/-- The ending in a source with `k` more characters in front of it. -/
def Ending.move (k : Nat) : Ending → Ending
  | .complete length => .complete (length + k)
  | .unrecognized offset => .unrecognized (offset + k)

/-- The cut of a source with `k` more characters in front of it. -/
def Scan.move (k : Nat) (scan : Scan) : Scan :=
  ⟨scan.symbols.map (Symbol.move k), scan.ending.move k⟩

/-- A cut behind some symbols. -/
def Scan.behind (symbols : List Symbol) (scan : Scan) : Scan :=
  ⟨symbols ++ scan.symbols, scan.ending⟩

/-- A text is cut in the same way wherever it begins. -/
theorem scanFrom_move (k offset : Nat) (s : List Char) :
    scanFrom Recognizer.table (offset + k) s = (scanFrom Recognizer.table offset s).move k := by
  induction offset, s using scan_induction with
  | atEnd offset => simp only [scanFrom_nil, Scan.move, Ending.move, List.map_nil]
  | blank offset c s hc ih => rwa [scanFrom_blank hc, scanFrom_blank hc, Nat.add_right_comm]
  | unrecognizable offset s hblank hs =>
      rw [scanFrom_unrecognizable hblank hs, scanFrom_unrecognizable hblank hs]
      rfl
  | token offset t rest hvalid ht hstops ih =>
      rw [scanFrom_token hvalid ht hstops, scanFrom_token hvalid ht hstops, Nat.add_right_comm, ih]
      simp [Scan.cons, Scan.move, Symbol.move, Token.symbolAt, Nat.add_right_comm]

/-! ## The seam -/

/-- Whether a token stops is a matter of the next character. -/
theorem stops_of_head?_eq {t : Token} {rest other : List Char} (h : t.Stops rest)
    (hhead : other.head? = rest.head?) : t.Stops other := by
  cases t with
  | word | ordinary =>
      simp only [Token.Stops] at h ⊢
      rwa [hhead]
  | _ => trivial

/-- Every token stops in front of a reserved character. -/
theorem stops_of_reserved (t : Token) {rest : List Char}
    (h : ∀ c ∈ rest.head?, isReserved c = true) : t.Stops rest := by
  cases t with
  | word => exact fun c hc => not_isLetter_of_isReserved (h c hc)
  | ordinary => exact h
  | _ => trivial

theorem stops_take {t : Token} {rest : List Char} (h : t.Stops rest) (n : Nat) :
    t.Stops (rest.take n) := by
  cases n with
  | zero => cases t <;> simp [Token.Stops]
  | succ n => exact stops_of_head?_eq h (by cases rest <;> rfl)

/-- More text behind a token does not make it longer if there was some already, or if
the token stops where it begins. -/
theorem stops_append {t : Token} {rest : List Char} (h : t.Stops rest) {more : List Char}
    (hmore : rest = [] → t.Stops more) : t.Stops (rest ++ more) := by
  cases rest with
  | nil => exact hmore rfl
  | cons c rest => cases t <;> exact h

/-- The cut of a text goes on behind it if its last token stops there. -/
theorem scanFrom_append {offset : Nat} {s t : List Char}
    (hcomplete : (scanFrom Recognizer.table offset s).IsComplete)
    (hlast : ∀ x ∈ (scanFrom Recognizer.table offset s).symbols.getLast?, x.token.Stops t) :
    scanFrom Recognizer.table offset (s ++ t) =
      (scanFrom Recognizer.table (offset + s.length) t).behind
        (scanFrom Recognizer.table offset s).symbols := by
  induction offset, s using scan_induction with
  | atEnd offset =>
      rw [scanFrom_nil]
      rfl
  | blank offset c s hc ih =>
      rw [scanFrom_blank hc] at hcomplete hlast ⊢
      rw [List.cons_append, scanFrom_blank hc, ih hcomplete hlast, List.length_cons,
        Nat.add_right_comm, Nat.add_assoc]
  | unrecognizable offset s hblank hs =>
      rw [scanFrom_unrecognizable hblank hs] at hcomplete
      obtain ⟨length, hlength⟩ := hcomplete
      cases hlength
  | token offset tok rest hvalid htok hstops ih =>
      rw [scanFrom_token hvalid htok hstops] at hcomplete hlast ⊢
      have hrest :
          ∀ x ∈ (scanFrom Recognizer.table (offset + tok.chars.length) rest).symbols.getLast?,
            x.token.Stops t := by
        intro x hx
        refine hlast x ?_
        rw [Scan.cons, List.getLast?_cons, Option.mem_def.1 hx]
        rfl
      have hseam : tok.Stops (rest ++ t) := by
        refine stops_append hstops ?_
        rintro rfl
        rw [← Token.token_symbolAt htok offset]
        exact hlast _ (by rw [scanFrom_nil]; rfl)
      rw [List.append_assoc, scanFrom_token hvalid htok hseam, ih hcomplete hrest,
        List.length_append, ← Nat.add_assoc]
      rfl

/-- The cut of two texts behind each other. -/
theorem scan_append {s t : List Char} (hcomplete : (scan s).IsComplete)
    (hlast : ∀ x ∈ (scan s).symbols.getLast?, x.token.Stops t) :
    scan (s ++ t) = ((scan t).move s.length).behind (scan s).symbols := by
  unfold scan at *
  rw [scanFrom_append hcomplete hlast, scanFrom_move]

/-- Symbols and the end of a cut lie in the text. -/
theorem within_scanFrom (offset : Nat) (s : List Char) :
    (∀ x ∈ (scanFrom Recognizer.table offset s).symbols,
      x.start ≤ x.stop ∧ x.stop ≤ offset + s.length) ∧
    (scanFrom Recognizer.table offset s).ending.offset ≤ offset + s.length := by
  induction offset, s using scan_induction with
  | atEnd offset => simp [scanFrom_nil, Ending.offset]
  | blank offset c s hc ih =>
      rw [scanFrom_blank hc, List.length_cons, ← Nat.add_assoc, Nat.add_right_comm]
      exact ih
  | unrecognizable offset s hblank hs => simp [scanFrom_unrecognizable hblank hs, Ending.offset]
  | token offset t rest hvalid ht hstops ih =>
      rw [scanFrom_token hvalid ht hstops, List.length_append, ← Nat.add_assoc]
      refine ⟨List.forall_mem_cons.2 ⟨?_, ih.1⟩, ih.2⟩
      simp [Token.symbolAt]

end Symbol

end AlgoBox
