import AlgoBox.Proofs.EarliestFault
import AlgoBox.Proofs.Locating
import AlgoBox.Proofs.Lossless
import AlgoBox.Proofs.Seams

/-!
# Positions in messages

A source that cannot be read is reported with the full position of its fault
(`parse_error_report`): an offset in the source at which a symbol or text that is no
symbol starts, its line and column (`Stands`), and the excerpt around it with the marker
at the offset (`excerpt_eq`).
-/

namespace AlgoBox

open AlgoBox.Symbol

namespace Source

/-! ## Lines and columns -/

/-- An offset stands in a line and a column, both counted from one: the line is one more
than the line feeds before the offset, the column one more than the characters between the
start of the line and the offset. -/
structure Stands (source : List Char) (offset : Nat) (line column : Int) : Prop where
  line_eq : line = 1 + (source.take offset).count '\n'
  column_eq : ∃ front current, source.take offset = front ++ current ∧
    (∀ c ∈ front.getLast?, c = '\n') ∧ '\n' ∉ current ∧ column = 1 + (current.length : Int)

/-- The last line of a text behind the lines before it. -/
theorem exists_lastLine (s : List Char) : ∃ front current, s = front ++ current ∧
    (∀ c ∈ front.getLast?, c = '\n') ∧ '\n' ∉ current ∧ lastLineLength s = current.length := by
  refine ⟨(s.reverse.dropWhile (· ≠ '\n')).reverse, (s.reverse.takeWhile (· ≠ '\n')).reverse,
    ?_, ?_, ?_, ?_⟩
  · rw [← List.reverse_append, List.takeWhile_append_dropWhile, List.reverse_reverse]
  · intro c hc
    have hlast := List.head?_dropWhile_not (· ≠ '\n') s.reverse
    rw [← List.getLast?_reverse, Option.mem_def.1 hc] at hlast
    simpa using hlast
  · intro hmem
    simpa using List.mem_takeWhile_imp (List.mem_reverse.1 hmem)
  · rw [List.length_reverse]
    rfl

theorem clamp_eq {source : List Char} {offset : Nat} (h : offset ≤ source.length) :
    clamp source offset = offset := by
  rw [clamp, Int.toNat_natCast, Nat.min_eq_left h]

theorem Location.ofOffset_stands {source : List Char} {offset : Nat}
    (h : offset ≤ source.length) (stop : Option Int) :
    Stands source offset (ofOffset source offset stop).line
      (ofOffset source offset stop).column := by
  have hclamp := clamp_eq h
  obtain ⟨front, current, htext, hfront, hcurrent, hlength⟩ :=
    exists_lastLine (source.take offset)
  refine ⟨?_, front, current, htext, hfront, hcurrent, ?_⟩
  · simp only [ofOffset, hclamp]
    omega
  · simp only [ofOffset, hclamp, hlength]
    omega

/-! ## Excerpts -/

theorem between_between (source : List Char) {a b c : Nat} (hab : a ≤ b) (hbc : b ≤ c) :
    between source a b ++ between source b c = between source a c := by
  have hsum : c - a = (b - a) + (c - b) := by omega
  have hdrop : source.drop b = (source.drop a).drop (b - a) := by
    rw [List.drop_drop, Nat.add_sub_cancel' hab]
  rw [between, between, between, hdrop, hsum, List.take_add]

/-- The window holds what stands up to `radius` characters before the offset, the marker,
and what stands behind the offset as far as the marker leaves room. -/
theorem excerpt_eq {source : List Char} {offset radius : Nat} {marker : List Char}
    (hoffset : offset ≤ source.length) (hmarker : marker.length ≤ radius) :
    excerpt source offset radius marker = between source (offset - radius) offset ++ marker ++
      between source offset (offset + (radius - marker.length)) := by
  have hlength : (source.take offset).length = offset := List.length_take_of_le hoffset
  have hstart : ((offset : Int) - radius).toNat = offset - radius := by omega
  have hstop : ((offset : Int) + radius).toNat = offset + radius := by omega
  have hpositive : ¬(offset : Int) + radius < 0 := by omega
  have hroom : offset + radius - (offset + marker.length) = radius - marker.length := by omega
  have hback : offset + (radius - marker.length) - offset = radius - marker.length := by omega
  unfold excerpt slice between
  dsimp only
  rw [clamp_eq hoffset, if_neg hpositive, hstart, hstop, hback, ← List.drop_take]
  -- the window ends behind the marker and begins before the offset
  rw [List.take_append, List.take_of_length_le (by rw [List.length_append, hlength]; omega),
    List.length_append, hlength, hroom, List.append_assoc, List.append_assoc,
    List.drop_append_of_le_length (by rw [hlength]; omega)]

end Source

/-! ## Reports -/

open Source

/-- The full position that a fault is reported with. The offset lies in the source; a fault
is lexical where text starts that is no symbol, and syntactic where a symbol starts, the end
of the source being where the source ends. The report gives the stage, the bare message, the
offset and a place: its line and column, and the excerpt, which is a stretch of the source
with the marker put in. The text is the message with the offset and the flattened excerpt
behind it. -/
structure Fault.Positioned (source : List Char) (fault : Fault) : Prop where
  inside : fault.offset ≤ source.length
  starts : (fault.cause.category = .lexical ∧ (scan source).ending = .unrecognized fault.offset ∧
      Unrecognizable (source.drop fault.offset)) ∨
    (fault.cause.category = .syntactic ∧ ∃ s ∈ (scan source).stream, s.start = fault.offset ∧
      (s.kind = .endOfSource → fault.offset = source.length))
  reported : ∃ place : Place,
    fault.report source =
      ⟨fault.cause.category, fault.cause.message, some fault.offset, some place⟩ ∧
    Stands source fault.offset place.line place.column ∧
    place.excerpt = between source (fault.offset - 15) fault.offset ++ defaultMarker ++
      between source fault.offset (fault.offset + 14) ∧
    between source (fault.offset - 15) fault.offset ++
      between source fault.offset (fault.offset + 14) =
        between source (fault.offset - 15) (fault.offset + 14) ∧
    (fault.report source).text = fault.cause.message ++ " at position " ++ toString fault.offset ++
      ": `" ++ String.ofList (flatten place.excerpt) ++ "`"

/-- Symbols start in the source, and the end of the source where the source ends. -/
theorem start_of_mem_stream {source : List Char} {s : Symbol} (h : s ∈ (scan source).stream) :
    s.start ≤ source.length ∧ (s.kind = .endOfSource → s.start = source.length) := by
  have inside : s ∈ (scan source).symbols → s.start ≤ source.length := by
    intro hmem
    obtain ⟨hle, hstop⟩ := (within_scanFrom 0 source).1 s hmem
    rw [Nat.zero_add] at hstop
    exact Nat.le_trans hle hstop
  have proper : s ∈ (scan source).symbols → s.kind ≠ .endOfSource :=
    fun hmem => (valid_of_mem_scanFrom 0 source s hmem).1.kind_ne
  rcases List.mem_append.1 h with hmem | hmem
  · exact ⟨inside hmem, fun hkind => absurd hkind (proper hmem)⟩
  · cases hending : (scan source).ending with
    | unrecognized offset =>
        rw [hending] at hmem
        cases hmem
    | complete length =>
        -- the tiles say how long a source is that is cut to its end
        obtain ⟨inner, hinner, -⟩ := (tiled_of_scanFrom hending).ends
        rw [hending, Ending.symbols, List.mem_singleton] at hmem
        have hstream : (scan source).symbols ++ [.atEnd length] =
            inner ++ [.atEnd (0 + source.length)] := by
          rw [← hinner]
          exact congrArg (_ ++ ·) (congrArg Ending.symbols hending.symm)
        obtain ⟨-, hlast⟩ := List.append_inj' hstream rfl
        have hlength : length = 0 + source.length := congrArg Symbol.start (List.cons.inj hlast).1
        rw [hmem]
        show length ≤ source.length ∧ (_ → length = source.length)
        omega

theorem Fault.positioned {source : List Char} {fault : Fault}
    (hinside : fault.offset ≤ source.length)
    (hstarts : (fault.cause.category = .lexical ∧
        (scan source).ending = .unrecognized fault.offset ∧
        Unrecognizable (source.drop fault.offset)) ∨
      (fault.cause.category = .syntactic ∧ ∃ s ∈ (scan source).stream, s.start = fault.offset ∧
        (s.kind = .endOfSource → fault.offset = source.length))) :
    fault.Positioned source where
  inside := hinside
  starts := hstarts
  reported := by
    have hmarker : defaultMarker.length ≤ 15 := by decide
    refine ⟨_, rfl, Location.ofOffset_stands hinside none, excerpt_eq hinside hmarker, ?_, rfl⟩
    exact between_between source (Nat.sub_le _ _) (Nat.le_add_right _ _)

/-- A source that cannot be read is reported with the full position of its fault. -/
theorem parse_error_report {source : String} {fault : Fault} (h : parse source = .error fault) :
    fault.Positioned source.toList := by
  -- a fault that is not lexical is at a symbol
  have syntactic : ∀ s ∈ (scan source.toList).stream, s.start = fault.offset →
      fault.cause.category = .syntactic → fault.Positioned source.toList := by
    intro s hs hstart hcategory
    obtain ⟨hinside, hend⟩ := start_of_mem_stream hs
    rw [hstart] at hinside hend
    exact Fault.positioned hinside (.inr ⟨hcategory, s, hs, hstart, hend⟩)
  rcases parse_error_cases h with ⟨hcause, hending, -⟩ | ⟨hcause, -, s, hs, hstart, -⟩ |
    ⟨name, hname, ⟨before, here, after, hstream, -, hhead⟩, -⟩
  · have hinside := (within_scanFrom 0 source.toList).2
    rw [← scan, hending, Ending.offset, Nat.zero_add] at hinside
    obtain ⟨k, hk, htext⟩ := unrecognizable_of_scanFrom hending
    rw [Nat.zero_add] at hk
    subst hk
    exact Fault.positioned hinside (.inl ⟨by rw [hcause]; rfl, hending, htext⟩)
  · exact syntactic s hs hstart hcause.category_eq
  · obtain ⟨s, hs, hstart⟩ := Option.map_eq_some_iff.1 hhead
    refine syntactic s ?_ hstart hname.category_eq
    rw [hstream]
    exact List.mem_append_left _ (List.mem_append_right _ (List.mem_of_mem_head? hs))

/-- A conditional that is not closed: the fault is at the end of the source, in its second
line. -/
theorem positioned_unclosed_conditional :
    parse "\\begin{algorithmic}\n  \\IF{x}" =
      .error ⟨.wrongKind .word .endOfSource, 28⟩ ∧
    Fault.Positioned "\\begin{algorithmic}\n  \\IF{x}".toList
      ⟨.wrongKind .word .endOfSource, 28⟩ := by
  have hparse : parse "\\begin{algorithmic}\n  \\IF{x}" =
      .error ⟨.wrongKind .word .endOfSource, 28⟩ :=
    parse_eq_error_iff.2 (by decide +kernel)
  exact ⟨hparse, parse_error_report hparse⟩

end AlgoBox
