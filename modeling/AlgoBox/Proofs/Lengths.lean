import AlgoBox.Proofs.Deciding
import AlgoBox.Proofs.Numerals
import AlgoBox.Proofs.Rounding

/-!
# Which texts are lengths

A text is a length if it is a number literal with the unit behind it, blanks aside, and the
double nearest to what the literal says is finite and not below zero (`Em.SpellsLength`). The
texts that are read are these and no others, each as that double, and all else is reported as
a faulty configuration (`Em.lengths_read_exactly`).

Blanks around a length are not the blanks that may stand between its number and its unit. The
four ASCII separators are blanks, but not of a numeral (`Em.separator_before_unit`).
-/

namespace AlgoBox

open Numeric Text Binary64

/-! ## Trimming -/

namespace Text

section Trim

variable {isOuter : Char → Bool} {before behind s : List Char}

/-- What is trimmed off is of the class, on both sides. -/
theorem exists_trim (isOuter : Char → Bool) (s : List Char) :
    ∃ before behind, s = before ++ trim isOuter s ++ behind ∧
      (∀ c ∈ before, isOuter c = true) ∧ ∀ c ∈ behind, isOuter c = true := by
  have hleft : s.takeWhile isOuter ++ s.dropWhile isOuter = s := List.takeWhile_append_dropWhile
  generalize hinner : s.dropWhile isOuter = inner at *
  have hright : inner.reverse.takeWhile isOuter ++ inner.reverse.dropWhile isOuter =
      inner.reverse := List.takeWhile_append_dropWhile
  have hall : ∀ l : List Char, ∀ c ∈ l.takeWhile isOuter, isOuter c = true :=
    fun l => List.all_eq_true.1 List.all_takeWhile
  refine ⟨s.takeWhile isOuter, (inner.reverse.takeWhile isOuter).reverse, ?_, hall s,
    fun c hc => hall _ c (List.mem_reverse.1 hc)⟩
  unfold trim
  rw [hinner, List.append_assoc, ← List.reverse_append, hright, List.reverse_reverse, hleft]

theorem trim_append (hbefore : ∀ c ∈ before, isOuter c = true)
    (hbehind : ∀ c ∈ behind, isOuter c = true) :
    trim isOuter (before ++ s ++ behind) = trim isOuter s := by
  have hreverse : ∀ c ∈ behind.reverse, isOuter c = true :=
    fun c hc => hbehind c (List.mem_reverse.1 hc)
  unfold trim
  rw [List.append_assoc, List.dropWhile_append_of_pos hbefore, List.dropWhile_append]
  split
  case isTrue hempty =>
    have hnil : s.dropWhile isOuter = [] := List.isEmpty_iff.1 hempty
    have hbehind' : behind.dropWhile isOuter = [] := by
      rw [← List.append_nil behind, List.dropWhile_append_of_pos hbehind, List.dropWhile_nil]
    rw [hnil, hbehind']
  case isFalse =>
    rw [List.reverse_append, List.dropWhile_append_of_pos hreverse]

/-- Nothing is trimmed off a text whose first and last character are not of the class. -/
theorem trim_eq_self {first last : Char} (hhead : s.head? = some first)
    (hlast : s.getLast? = some last) (hfirst : isOuter first = false)
    (hend : isOuter last = false) : trim isOuter s = s := by
  have hdrop : ∀ {l : List Char} {c : Char}, l.head? = some c → isOuter c = false →
      l.dropWhile isOuter = l := by
    intro l c hl hc
    obtain ⟨rest, rfl⟩ := List.head?_eq_some_iff.1 hl
    rw [List.dropWhile_cons_of_neg (by simp [hc])]
  have hreverse : s.reverse.head? = some last := by rw [List.head?_reverse, hlast]
  unfold trim
  rw [hdrop hhead hfirst, hdrop hreverse hend, List.reverse_reverse]

end Trim

/-! ## Blanks and digits -/

theorem isBlank_of_isNumeralBlank {c : Char} (h : isNumeralBlank c = true) :
    isBlank c = true := by
  unfold isNumeralBlank at h
  exact (Bool.and_eq_true_iff.1 h).1

theorem isNumeralBlank_of_not_isBlank {c : Char} (h : isBlank c = false) :
    isNumeralBlank c = false := by
  unfold isNumeralBlank
  rw [h, Bool.false_and]

/-- No blank is a digit of any script. -/
theorem isBlank_of_decimalDigit? {c : Char} {d : ℕ} (h : decimalDigit? c = some d) :
    isBlank c = false := by
  have htable : ∀ start ∈ digitZeros, ∀ range ∈ blankRanges,
      range.2 < start ∨ start + 9 < range.1 := by
    decide
  unfold decimalDigit? at h
  obtain ⟨start, hfind, rfl⟩ := Option.map_eq_some_iff.1 h
  have hmem := List.mem_of_find?_eq_some hfind
  have hrange := List.find?_some hfind
  simp only [Bool.and_eq_true, decide_eq_true_eq] at hrange
  refine List.any_eq_false.2 fun range hblank => ?_
  have hapart := htable start hmem range hblank
  simp only [Bool.and_eq_true, decide_eq_true_eq]
  omega

end Text

/-! ## Literals hold no blanks -/

namespace Numeric.Numeral

variable {ds whole fraction : List ℕ} {text : List Char} {negative : Bool} {exponent : ℤ}

theorem Run.not_isBlank (h : Run ds text) : ∀ c ∈ text, isBlank c = false := by
  induction h with
  | last hd => exact List.forall_mem_singleton.2 (isBlank_of_decimalDigit? hd)
  | next hd _ ih => exact List.forall_mem_cons.2 ⟨isBlank_of_decimalDigit? hd, ih⟩
  | separated hd _ ih =>
      exact List.forall_mem_cons.2 ⟨isBlank_of_decimalDigit? hd,
        List.forall_mem_cons.2 ⟨by decide, ih⟩⟩

theorem OptionalRun.not_isBlank (h : OptionalRun ds text) : ∀ c ∈ text, isBlank c = false := by
  rcases h with hrun | ⟨-, rfl⟩
  · exact hrun.not_isBlank
  · exact fun c hc => absurd hc List.not_mem_nil

theorem Sign.not_isBlank (h : Sign negative text) : ∀ c ∈ text, isBlank c = false := by
  cases h with
  | none => exact List.forall_mem_nil _
  | plus | minus => exact List.forall_mem_singleton.2 (by decide)

theorem Mantissa.not_isBlank (h : Mantissa whole fraction text) :
    text ≠ [] ∧ ∀ c ∈ text, isBlank c = false := by
  cases h with
  | plain hrun =>
      refine ⟨?_, hrun.not_isBlank⟩
      rintro rfl
      cases hrun
  | pointed hwhole hfraction _ =>
      refine ⟨by simp, List.forall_mem_append.2 ⟨hwhole.not_isBlank, ?_⟩⟩
      exact List.forall_mem_cons.2 ⟨by decide, hfraction.not_isBlank⟩

theorem Exponent.not_isBlank (h : Exponent exponent text) : ∀ c ∈ text, isBlank c = false := by
  cases h with
  | none => exact fun c hc => absurd hc List.not_mem_nil
  | marked hmark hsign hrun =>
      have hblank : isBlank 'e' = false ∧ isBlank 'E' = false := by decide
      have hdigits := List.forall_mem_append.2 ⟨hsign.not_isBlank, hrun.not_isBlank⟩
      refine List.forall_mem_cons.2 ⟨?_, hdigits⟩
      rcases hmark with rfl | rfl
      · exact hblank.1
      · exact hblank.2

theorem Spells.not_isBlank {n : Numeral} (h : n.Spells text) :
    text ≠ [] ∧ ∀ c ∈ text, isBlank c = false := by
  obtain ⟨sign, mantissa, power, rfl, hsign, hmantissa, hexponent⟩ := h
  refine ⟨fun hnil => ?_, ?_⟩
  · exact hmantissa.not_isBlank.1 (List.append_eq_nil_iff.1 (List.append_eq_nil_iff.1 hnil).2).1
  · exact List.forall_mem_append.2 ⟨hsign.not_isBlank,
      List.forall_mem_append.2 ⟨hmantissa.not_isBlank.2, hexponent.not_isBlank⟩⟩

/-! ## The double of a literal -/

/-- The double is the correctly rounded value of what a literal says. -/
def RoundsTo (n : Numeral) (x : Binary64) : Prop :=
  ∃ rank, IsNearest n.magnitude rank ∧ x = ofRank n.negative rank

/-- The correctly rounded value is what the reader computes. -/
theorem roundsTo_iff {n : Numeral} {x : Binary64} :
    n.RoundsTo x ↔ x = ofDecimal n.negative n.digits n.scale := by
  constructor
  · rintro ⟨rank, hnearest, rfl⟩
    exact (ofDecimal_eq_ofRank hnearest n.negative).symm
  · rintro rfl
    obtain ⟨rank, hnearest⟩ := exists_isNearest n.digits n.scale
    exact ⟨rank, hnearest, ofDecimal_eq_ofRank hnearest n.negative⟩

end Numeric.Numeral

/-! ## Lengths -/

namespace Em

/-- A text is a number literal with the unit behind it, where characters of a class may stand
between the two and blanks around them, and the double of the literal is finite and not below
zero. -/
def SpellsLength (isInner : Char → Bool) (text : List Char) (x : Binary64) : Prop :=
  ∃ before number gap behind, ∃ n : Numeral,
    text = before ++ (number ++ gap ++ unit) ++ behind ∧
    (∀ c ∈ before, isBlank c = true) ∧ (∀ c ∈ gap, isInner c = true) ∧
    (∀ c ∈ behind, isBlank c = true) ∧
    n.Spells number ∧ n.RoundsTo x ∧ x.isFinite = true ∧ x.isNegative = false

/-- The texts that are read are those that spell a length. -/
theorem parse_text_iff {text : String} {x : Binary64} :
    parse (.text text) = .ok x ↔ SpellsLength isNumeralBlank text.toList x := by
  rw [parse_eq_ok_iff]
  constructor
  · rintro ⟨text', numeral, htext, htrim, hread, hfinite, hnegative⟩
    obtain rfl := Value.text.inj htext
    obtain ⟨before, behind, hsplit, hbefore, hbehind⟩ := exists_trim isBlank text.toList
    obtain ⟨left, gap, hnumeral, hleft, hgap⟩ := exists_trim isNumeralBlank numeral
    obtain ⟨n, hspells, hx⟩ := (read_spelled_iff hfinite).1 hread
    refine ⟨before ++ left, trim isNumeralBlank numeral, gap, behind, n, ?_, ?_, hgap, hbehind,
      hspells, Numeral.roundsTo_iff.2 hx, hfinite, hnegative⟩
    · rw [htrim] at hsplit
      conv_lhs => rw [hsplit, hnumeral]
      simp only [List.append_assoc]
    · -- what is trimmed off in front of the number is blank, too
      exact List.forall_mem_append.2 ⟨hbefore, fun c hc => isBlank_of_isNumeralBlank (hleft c hc)⟩
  · rintro ⟨before, number, gap, behind, n, htext, hbefore, hgap, hbehind, hspells, hx, hfinite,
      hnegative⟩
    obtain ⟨hne, hblank⟩ := hspells.not_isBlank
    obtain ⟨first, rest, rfl⟩ := List.exists_cons_of_ne_nil hne
    have hfirst : isBlank first = false := hblank first (List.mem_cons_self ..)
    have hnumber : trim isNumeralBlank (first :: rest ++ gap) = first :: rest := by
      have hlast := List.getLast?_eq_some_getLast hne
      have hend := hblank _ (List.getLast_mem hne)
      rw [← List.nil_append (first :: rest), trim_append (List.forall_mem_nil _) hgap]
      exact trim_eq_self rfl hlast (isNumeralBlank_of_not_isBlank hfirst)
        (isNumeralBlank_of_not_isBlank hend)
    refine ⟨text, first :: rest ++ gap, rfl, ?_, ?_, hfinite, hnegative⟩
    · rw [htext, trim_append hbefore hbehind]
      have hlast : (first :: rest ++ gap ++ unit).getLast? = some 'm' := by
        rw [List.getLast?_append]
        rfl
      exact trim_eq_self rfl hlast hfirst (by decide)
    · unfold Literal.read?
      rw [hnumber]
      exact (read_spelled_iff hfinite).2 ⟨n, hspells, Numeral.roundsTo_iff.1 hx⟩

/-- Every text that spells a length is read as that double, and nothing else is read. Blanks
around a text do not matter. Whatever is not read is reported as a faulty configuration, if it
can be quoted. -/
theorem lengths_read_exactly :
    (∀ text x, parse (.text text) = .ok x ↔ SpellsLength isNumeralBlank text.toList x) ∧
    (∀ text before behind x, (∀ c ∈ before, isBlank c = true) → (∀ c ∈ behind, isBlank c = true) →
      (parse (.text (String.ofList before ++ text ++ String.ofList behind)) = .ok x ↔
        parse (.text text) = .ok x)) ∧
    ∀ value, (¬∃ text x, value = .text text ∧ SpellsLength isNumeralBlank text.toList x) →
      ¬value.HoldsLong → ∃ fault, parse value = .error fault ∧
        (Failure.options fault).report? = some (.make .configuration fault.message none none) := by
  refine ⟨fun text x => parse_text_iff, ?_, ?_⟩
  · intro text before behind x hbefore hbehind
    have htrim : trim isBlank (String.ofList before ++ text ++ String.ofList behind).toList =
        trim isBlank text.toList := by
      rw [String.toList_append, String.toList_append, String.toList_ofList, String.toList_ofList,
        trim_append hbefore hbehind]
    rw [parse_eq_ok_iff, parse_eq_ok_iff]
    constructor
    · rintro ⟨text', number, htext, hnumber, hread⟩
      obtain rfl := Value.text.inj htext
      exact ⟨text, number, rfl, htrim ▸ hnumber, hread⟩
    · rintro ⟨text', number, htext, hnumber, hread⟩
      obtain rfl := Value.text.inj htext
      exact ⟨_, number, rfl, htrim.trans hnumber, hread⟩
  · intro value hnone hshort
    cases hparse : parse value with
    | ok x =>
        obtain ⟨text, number, rfl, hwrites⟩ := parse_eq_ok_iff.1 hparse
        exact absurd ⟨text, x, rfl, parse_text_iff.1 hparse⟩ hnone
    | error fault =>
        rcases parse_error_cases hparse with ⟨hlong, -⟩ | ⟨-, hreport⟩
        · exact absurd hlong hshort
        · exact ⟨fault, rfl, hreport⟩

/-- A length in digits of two scripts between blanks, and a number that is no text. -/
theorem lengths_read_exactly_of_mixed_digits :
    parse (.text (String.ofList ['\t'] ++ "+١_2.e-1 em" ++ String.ofList [' '])) =
      .ok (.ofDecimal false 12 (-1)) ∧
    ∃ fault, parse (.int 12) = .error fault ∧
      (Failure.options fault).report? = some (.make .configuration fault.message none none) := by
  have hspells : Numeral.Spells ⟨false, [1, 2], [], -1⟩ "+١_2.e-1".toList := by
    have hrun : Numeral.Run [1, 2] "١_2".toList :=
      .separated (by decide) (.last (by decide))
    have hpower : Numeral.Exponent (-1) "e-1".toList :=
      .marked (.inl rfl) .minus (.last (by decide))
    exact ⟨"+".toList, "١_2.".toList, "e-1".toList, rfl, .plus,
      .pointed (.inl hrun) (.inr ⟨rfl, rfl⟩) (by decide), hpower⟩
  have hlength : SpellsLength isNumeralBlank "+١_2.e-1 em".toList (.ofDecimal false 12 (-1)) :=
    ⟨[], "+١_2.e-1".toList, [' '], [], _, rfl, List.forall_mem_nil _,
      List.forall_mem_singleton.2 (by decide), List.forall_mem_nil _, hspells,
      Numeral.roundsTo_iff.2 rfl, by decide +kernel, by decide +kernel⟩
  have hread := (lengths_read_exactly.1 _ _).2 hlength
  have htab : ∀ c ∈ ['\t'], isBlank c = true := List.forall_mem_singleton.2 (by decide)
  have hspace : ∀ c ∈ [' '], isBlank c = true := List.forall_mem_singleton.2 (by decide)
  refine ⟨(lengths_read_exactly.2.1 _ _ _ _ htab hspace).2 hread, ?_⟩
  have hnone : ¬∃ text x, Value.int 12 = .text text ∧
      SpellsLength isNumeralBlank text.toList x := by
    rintro ⟨text, x, htext, -⟩
    cases htext
  have hshort : ¬(Value.int 12).HoldsLong := by
    rw [← Value.quoted?_eq_none_iff]
    decide +kernel
  exact lengths_read_exactly.2.2 (.int 12) hnone hshort

/-- A separator is a blank, but between a number and its unit it is not skipped. -/
theorem separator_before_unit :
    ¬∀ text x, parse (.text text) = .ok x ↔ SpellsLength isBlank text.toList x := by
  intro h
  have hspells : Numeral.Spells ⟨false, [1], [], 0⟩ ['1'] :=
    ⟨[], ['1'], [], rfl, .none, .plain (.last (by decide)), .none⟩
  have hlength : SpellsLength isBlank "1\u001cem".toList (.ofDecimal false 1 0) :=
    ⟨[], ['1'], ['\u001c'], [], _, rfl, List.forall_mem_nil _,
      List.forall_mem_singleton.2 (by decide), List.forall_mem_nil _, hspells,
      Numeral.roundsTo_iff.2 rfl, by decide +kernel, by decide +kernel⟩
  have hparse := (h "1\u001cem" _).2 hlength
  have hfault : parse (.text "1\u001cem") = .error (.notANumber "1\u001cem") := rfl
  rw [hfault] at hparse
  cases hparse

end Em

end AlgoBox
