import AlgoBox.Proofs.Lossless
import AlgoBox.Proofs.Seams

/-!
# Splitting a source where a symbol starts

A source that is cut to its end can be split at the start of any of its symbols: both parts are
cut to their ends, and their symbols are those of the source (`tokenize_splits`). So a symbol
does not depend on what stands before it, and those before it depend on it through its first
character only.

Up to a place where a symbol starts, a text is cut in the same way whatever stands behind the
next character (`split_scanFrom`): a blank and a token in front of the place are still there, and
the token stops where it stopped. Whether the text is cut to its end does not matter for that, so
the place can also be the one where no symbol starts.
-/

namespace AlgoBox

open AlgoBox.Symbol

namespace Symbol

/-- The offsets at which the symbols of a cut start, and that of what follows the last one. -/
def Scan.places (scan : Scan) : List Nat := scan.symbols.map (·.start) ++ [scan.ending.offset]

theorem ending_mem_places (scan : Scan) : scan.ending.offset ∈ scan.places :=
  List.mem_append_right _ (List.mem_singleton_self _)

theorem start_mem_places {scan : Scan} {x : Symbol} (hx : x ∈ scan.stream) :
    x.start ∈ scan.places := by
  rcases List.mem_append.1 hx with hinside | hend
  · exact List.mem_append_left _ (List.mem_map_of_mem hinside)
  · cases hending : scan.ending with
    | complete length =>
        rw [hending] at hend
        rw [List.mem_singleton.1 hend]
        have hplace := ending_mem_places scan
        rwa [hending] at hplace
    | unrecognized offset =>
        rw [hending] at hend
        cases hend

theorem le_of_mem_places {offset k : Nat} {s : List Char}
    (h : k ∈ (scanFrom Recognizer.table offset s).places) : offset ≤ k ∧ k ≤ offset + s.length := by
  refine ⟨(sorted_scanFrom offset s).2 k h, ?_⟩
  obtain ⟨hsymbols, hending⟩ := within_scanFrom offset s
  rcases List.mem_append.1 h with hstart | hend
  · obtain ⟨x, hx, rfl⟩ := List.mem_map.1 hstart
    exact Nat.le_trans (hsymbols x hx).1 (hsymbols x hx).2
  · rw [List.mem_singleton.1 hend]
    exact hending

/-! ## The cut up to a place -/

/-- Up to a place a text is cut to its end, and the cut goes on there whatever stands behind
the next character. -/
theorem split_scanFrom {offset k : Nat} {s : List Char}
    (h : offset + k ∈ (scanFrom Recognizer.table offset s).places) :
    (scanFrom Recognizer.table offset (s.take k)).IsComplete ∧
      ∀ other : List Char, other.head? = (s.drop k).head? →
        scanFrom Recognizer.table offset (s.take k ++ other) =
          (scanFrom Recognizer.table (offset + k) other).behind
            (scanFrom Recognizer.table offset (s.take k)).symbols := by
  -- nothing is in front of the first place
  have first : ∀ (offset : Nat) (s : List Char),
      (scanFrom Recognizer.table offset (s.take 0)).IsComplete ∧
        ∀ other : List Char, other.head? = (s.drop 0).head? →
          scanFrom Recognizer.table offset (s.take 0 ++ other) =
            (scanFrom Recognizer.table (offset + 0) other).behind
              (scanFrom Recognizer.table offset (s.take 0)).symbols := by
    intro offset s
    rw [List.take_zero, scanFrom_nil]
    exact ⟨⟨offset, rfl⟩, fun _ _ => rfl⟩
  induction offset, s using scan_induction generalizing k with
  | atEnd offset =>
      rw [scanFrom_nil] at h
      obtain rfl : k = 0 := by simpa [Scan.places, Ending.offset] using h
      exact first offset []
  | unrecognizable offset s hblank hs =>
      rw [scanFrom_unrecognizable hblank hs] at h
      obtain rfl : k = 0 := by simpa [Scan.places, Ending.offset] using h
      exact first offset s
  | blank offset c s hc ih =>
      rw [scanFrom_blank hc] at h
      have hle := (le_of_mem_places h).1
      obtain ⟨k, rfl⟩ := Nat.exists_eq_add_of_le' (show 1 ≤ k by omega)
      have hsum : offset + 1 + k = offset + (k + 1) := by omega
      obtain ⟨hcomplete, hmore⟩ := ih (by rwa [hsum])
      rw [List.take_succ_cons, scanFrom_blank hc, List.drop_succ_cons]
      refine ⟨hcomplete, fun other hother => ?_⟩
      rw [List.cons_append, scanFrom_blank hc, hmore other hother, hsum]
  | token offset t rest hvalid ht hstops ih =>
      rw [scanFrom_token hvalid ht hstops] at h
      rcases List.mem_cons.1 h with hk | hk
      · obtain rfl : k = 0 := by simpa [Token.symbolAt] using hk
        exact first offset _
      · have hle := (le_of_mem_places hk).1
        obtain ⟨k, rfl⟩ := Nat.exists_eq_add_of_le (show t.chars.length ≤ k by omega)
        have hsum : offset + t.chars.length + k = offset + (t.chars.length + k) := by omega
        obtain ⟨hcomplete, hmore⟩ := ih (by rwa [hsum])
        rw [List.take_length_add_append, List.drop_length_add_append,
          scanFrom_token hvalid ht (stops_take hstops k)]
        refine ⟨hcomplete, fun other hother => ?_⟩
        -- behind the token stands what stood there, at least up to its first character
        have hhead : (rest.take k ++ other).head? = rest.head? := by
          rw [List.head?_append, hother, ← List.head?_append, List.take_append_drop]
        rw [List.append_assoc, scanFrom_token hvalid ht (stops_of_head?_eq hstops hhead),
          hmore other hother, hsum]
        rfl

/-- The cut of a text in front of a place is the same before any text that begins with the same
character. -/
theorem split_scan {front rest other : List Char}
    (h : front.length ∈ (scan (front ++ rest)).places) (hother : other.head? = rest.head?) :
    (scan front).IsComplete ∧
      scan (front ++ other) = ((scan other).move front.length).behind (scan front).symbols := by
  have hsplit := @split_scanFrom 0 front.length (front ++ rest) (by rwa [Nat.zero_add])
  rw [List.take_left, List.drop_left] at hsplit
  refine ⟨hsplit.1, ?_⟩
  rw [scan, hsplit.2 other hother, scanFrom_move]
  rfl

theorem length_take_of_place {source : List Char} {k : Nat} (h : k ∈ (scan source).places) :
    (source.take k).length = k := by
  have hle := (le_of_mem_places h).2
  rw [Nat.zero_add] at hle
  exact List.length_take_of_le hle

theorem length_take_mem_places {source : List Char} {k : Nat} (h : k ∈ (scan source).places) :
    (source.take k).length ∈ (scan (source.take k ++ source.drop k)).places := by
  rwa [length_take_of_place h, List.take_append_drop]

/-! ## The symbols up to a place -/

theorem Scan.stream_behind (symbols : List Symbol) (scan : Scan) :
    (scan.behind symbols).stream = symbols ++ scan.stream := List.append_assoc ..

theorem Scan.stream_move (k : Nat) (scan : Scan) :
    (scan.move k).stream = scan.stream.map (Symbol.move k) := by
  obtain ⟨symbols, ending⟩ := scan
  cases ending <;>
    simp [Scan.stream, Scan.move, Ending.move, Ending.symbols, Symbol.move, Symbol.atEnd]

theorem Scan.isComplete_move {k : Nat} {scan : Scan} (h : (scan.move k).IsComplete) :
    scan.IsComplete := by
  obtain ⟨symbols, ending⟩ := scan
  cases ending with
  | complete length => exact ⟨length, rfl⟩
  | unrecognized offset =>
      obtain ⟨length, hlength⟩ := h
      cases hlength

theorem split_stream {front rest other : List Char}
    (h : front.length ∈ (scan (front ++ rest)).places) (hother : other.head? = rest.head?) :
    (scan (front ++ other)).stream =
      withoutEnd (scan front).stream ++ (scan other).stream.map (Symbol.move front.length) := by
  rw [(split_scan h hother).2, Scan.stream_behind, Scan.stream_move, withoutEnd_stream]

end Symbol

/-! ## The law -/

/-- A source is cut at an offset, where one of its symbols starts, as the two parts are by
themselves, the latter moved to where it stands. The symbols from the offset on are the same
behind any text if one starts there, and those before it in front of any text if one starts
there, or if the text begins with the same character. -/
structure SplitsAt (source : List Char) (symbols : List Symbol) (k : Nat)
    (front back : List Symbol) : Prop where
  front_eq : tokenize? (source.take k) = some front
  back_eq : tokenize? (source.drop k) = some back
  joined : symbols = withoutEnd front ++ back.map (Symbol.move k)
  behind : ∀ other : List Char,
    (∃ y ∈ (scan (other ++ source.drop k)).stream, y.start = other.length) →
      back.map (Symbol.move other.length) <:+ (scan (other ++ source.drop k)).stream
  before : ∀ other : List Char,
    (∃ y ∈ (scan (source.take k ++ other)).stream, y.start = k) →
      withoutEnd front <+: (scan (source.take k ++ other)).stream
  before_char : ∀ c ∈ (source.drop k).head?, ∀ other : List Char,
    withoutEnd front <+: (scan (source.take k ++ c :: other)).stream

/-- A source that can be cut to its end splits wherever a symbol starts. -/
theorem tokenize_splits {source : List Char} {symbols : List Symbol} {x : Symbol}
    (h : tokenize? source = some symbols) (hx : x ∈ symbols) :
    ∃ front back, SplitsAt source symbols x.start front back := by
  obtain ⟨hcomplete, rfl⟩ := tokenize?_eq_some_iff.1 h
  have hplace := start_mem_places hx
  generalize x.start = k at hplace
  have hlength := length_take_of_place hplace
  have hsplit := length_take_mem_places hplace
  obtain ⟨hfront, hscan⟩ := split_scan hsplit rfl
  rw [List.take_append_drop] at hscan
  have hback : (scan (source.drop k)).IsComplete := by
    rw [hscan] at hcomplete
    exact Scan.isComplete_move hcomplete
  refine ⟨_, _, {
    front_eq := tokenize?_eq_some_iff.2 ⟨hfront, rfl⟩
    back_eq := tokenize?_eq_some_iff.2 ⟨hback, rfl⟩
    joined := ?_
    behind := ?_
    before := ?_
    before_char := ?_ }⟩
  · have hstream := split_stream hsplit rfl
    rwa [List.take_append_drop, hlength] at hstream
  · rintro other ⟨y, hy, hstart⟩
    have hplace := start_mem_places hy
    rw [hstart] at hplace
    rw [split_stream hplace rfl]
    exact List.suffix_append _ _
  · rintro other ⟨y, hy, hstart⟩
    have hplace := start_mem_places hy
    rw [hstart] at hplace
    have hseam : (source.take k).length ∈ (scan (source.take k ++ other)).places := by
      rwa [hlength]
    rw [split_stream hseam rfl]
    exact List.prefix_append _ _
  · intro c hc other
    have hhead : (c :: other).head? = (source.drop k).head? := (Option.mem_def.1 hc).symm
    rw [split_stream hsplit hhead]
    exact List.prefix_append _ _

/-- Between a formula with a dollar of its own and a command word. -/
theorem splits_behind_formula :
    tokenize? "a $x\\$y$\\STATE b".toList =
      some [⟨.ordinary, some "a ", 0, 2⟩, ⟨.math, some "x\\$y", 2, 8⟩, ⟨.word, some "STATE", 8, 14⟩,
        ⟨.ordinary, some "b", 15, 16⟩, .atEnd 16] ∧
    ∃ front back, SplitsAt "a $x\\$y$\\STATE b".toList
      [⟨.ordinary, some "a ", 0, 2⟩, ⟨.math, some "x\\$y", 2, 8⟩, ⟨.word, some "STATE", 8, 14⟩,
        ⟨.ordinary, some "b", 15, 16⟩, .atEnd 16] 8 front back := by
  have h : tokenize? "a $x\\$y$\\STATE b".toList =
      some [⟨.ordinary, some "a ", 0, 2⟩, ⟨.math, some "x\\$y", 2, 8⟩, ⟨.word, some "STATE", 8, 14⟩,
        ⟨.ordinary, some "b", 15, 16⟩, .atEnd 16] := by
    decide +kernel
  have hx : (⟨.word, some "STATE", 8, 14⟩ : Symbol) ∈
      [⟨.ordinary, some "a ", 0, 2⟩, ⟨.math, some "x\\$y", 2, 8⟩, ⟨.word, some "STATE", 8, 14⟩,
        ⟨.ordinary, some "b", 15, 16⟩, .atEnd 16] := by
    decide +kernel
  exact ⟨h, tokenize_splits h hx⟩

end AlgoBox
