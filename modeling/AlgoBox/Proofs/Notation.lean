import AlgoBox.Numeric.Decimal
import AlgoBox.Proofs.Numerals
import Mathlib.Algebra.Order.Field.Rat
import Mathlib.Data.Nat.Digits.Lemmas
import Mathlib.Data.Nat.Factorization.Basic
import Mathlib.Tactic.Ring

/-!
# Written decimals

The digits of a decimal do not depend on how it was scaled, only on its value
(`Decimal.ofScaled_congr`). However it is laid out, with a point or with an exponent, what is
written is a number literal that says this value (`Layout.says_ofScaled`).

A literal says one number (`Numeral.Spells.number?_eq`), so that numbers can be compared by
their texts.
-/

namespace AlgoBox.Numeric

open AlgoBox.Text Literal Numeral

-- powers of naturals are the core ones, as in the definition of a double
attribute [local instance (high)] instPowNat

/-! ## The number of a text -/

/-- The number that a text says, exactly, if it is a number literal. -/
def Literal.number? (text : List Char) : Option ℚ :=
  (strip? ' ' text).bind fun read =>
    (decimal? (splitSign read).2).map fun value =>
      (if (splitSign read).1 then -1 else 1) * (value.1 * 10 ^ value.2)

/-- The number with its sign. -/
def Numeral.number (n : Numeral) : ℚ := (if n.negative then -1 else 1) * n.magnitude

/-- The number of a literal. -/
theorem Numeral.Spells.number?_eq {n : Numeral} {text : List Char} (h : n.Spells text) :
    number? text = some n.number := by
  obtain ⟨sign, mantissa, power, rfl, hsign, hmantissa, hexponent⟩ := h
  obtain ⟨stripped, hstrip, hhead, hpower, hends⟩ := hexponent.reads
  obtain ⟨read, hread, ⟨c, hc, hbegins⟩, hfirst, hdecimal⟩ :=
    hmantissa.reads hstrip hhead hpower hends
  have hsplit : splitSign (sign ++ read) = (n.negative, read) := by
    refine hsign.splitSign ⟨?_, ?_⟩ <;>
      · rw [Option.mem_def.1 hc]
        rintro ⟨⟩
        rcases hbegins with hdigit | hpoint
        · cases hdigit
        · cases hpoint
  unfold number?
  rw [hsign.strip? hfirst, hread, Option.map_some, Option.bind_some, hsplit]
  dsimp only
  rw [hdecimal]
  rfl

/-! ## Digits -/

section Digits

variable {ds es : List ℕ}

theorem natOf_append (ds es : List ℕ) :
    natOf (ds ++ es) = natOf ds * 10 ^ es.length + natOf es := by
  unfold natOf
  rw [List.reverse_append, Nat.ofDigits_append, List.length_reverse, Nat.mul_comm, Nat.add_comm]

theorem natOf_zeros (count : ℕ) : natOf (List.replicate count 0) = 0 := by
  unfold natOf
  rw [List.reverse_replicate, Nat.ofDigits_replicate_zero]

theorem plainDigits_zeros (count : ℕ) :
    plainDigits (List.replicate count 0) = List.replicate count '0' :=
  List.map_replicate

theorem plainDigits_eq_nil_iff : plainDigits ds = [] ↔ ds = [] := List.map_eq_nil_iff

theorem decimalDigit?_digitChar {d : ℕ} (h : d < 10) :
    decimalDigit? (Nat.digitChar d) = some d := by
  have hascii : (Nat.digitChar d).isDigit = true := by
    rw [Nat.isDigit_digitChar]
    exact decide_eq_true h
  rw [decimalDigit?_of_isDigit hascii, Nat.toNat_digitChar_sub_48_of_lt_ten h]

/-- Digits that are written one behind the other are a run. -/
theorem run_plainDigits (hne : ds ≠ []) (hlt : ∀ d ∈ ds, d < 10) : Run ds (plainDigits ds) := by
  induction ds with
  | nil => exact absurd rfl hne
  | cons d ds ih =>
      obtain ⟨hd, hrest⟩ := List.forall_mem_cons.1 hlt
      cases hds : ds with
      | nil => exact .last (decimalDigit?_digitChar hd)
      | cons e es =>
          have hrun := ih (by simp [hds]) hrest
          rw [hds] at hrun
          exact .next (decimalDigit?_digitChar hd) hrun

theorem lt_ten_append (hds : ∀ d ∈ ds, d < 10) (hes : ∀ d ∈ es, d < 10) :
    ∀ d ∈ ds ++ es, d < 10 :=
  List.forall_mem_append.2 ⟨hds, hes⟩

theorem lt_ten_zeros (count : ℕ) : ∀ d ∈ List.replicate count 0, d < 10 := by
  intro d hd
  rw [List.eq_of_mem_replicate hd]
  decide

/-- The digits of a number, the first one being the highest. -/
theorem toDigits_eq_plainDigits (n : ℕ) : ∃ ds, ds ≠ [] ∧ (∀ d ∈ ds, d < 10) ∧
    Nat.toDigits 10 n = plainDigits ds ∧ natOf ds = n := by
  induction n using Nat.strongRecOn with
  | _ n ih =>
      rcases Nat.lt_or_ge n 10 with hsmall | hlarge
      · refine ⟨[n], by simp, by simpa using hsmall, Nat.toDigits_of_lt_base hsmall, ?_⟩
        exact Nat.ofDigits_singleton
      · obtain ⟨ds, -, hlt, hdigits, hvalue⟩ := ih (n / 10) (by omega)
        refine ⟨ds ++ [n % 10], by simp, lt_ten_append hlt ?_, ?_, ?_⟩
        · simpa using Nat.mod_lt n (by decide)
        · rw [Nat.toDigits_of_base_le (by decide) hlarge, hdigits, plainDigits_append]
          rfl
        · rw [natOf_append, hvalue]
          show n / 10 * 10 + natOf [n % 10] = n
          have hlast : natOf [n % 10] = n % 10 := Nat.ofDigits_singleton
          omega

end Digits

/-! ## The digits of a value -/

section Scaled

variable {n m : ℕ} {exponent exponent' : ℤ}

theorem toDigits_mul_ten (h : n ≠ 0) : Nat.toDigits 10 (n * 10) = Nat.toDigits 10 n ++ ['0'] := by
  have hsplit : n * 10 / 10 = n ∧ n * 10 % 10 = 0 := by omega
  rw [Nat.toDigits_of_base_le (by decide) (by omega), hsplit.1, hsplit.2]
  rfl

/-- A zero at the end of the digits is the same as a higher power of ten. -/
theorem Decimal.ofScaled_mul_ten (h : n ≠ 0) (exponent : ℤ) :
    Decimal.ofScaled (n * 10) exponent = Decimal.ofScaled n (exponent + 1) := by
  unfold ofScaled decimalLength
  rw [toDigits_mul_ten h, List.reverse_append, List.reverse_singleton, List.singleton_append,
    List.dropWhile_cons_of_pos (by decide), List.length_append, List.length_singleton]
  congr 1
  push_cast
  ring

theorem Decimal.ofScaled_mul_pow (h : n ≠ 0) (zeros : ℕ) (exponent : ℤ) :
    Decimal.ofScaled (n * 10 ^ zeros) exponent = Decimal.ofScaled n (exponent + zeros) := by
  induction zeros generalizing exponent with
  | zero => simp
  | succ zeros ih =>
      have hpos : n * 10 ^ zeros ≠ 0 := Nat.mul_ne_zero h (Nat.pow_pos (by decide)).ne'
      rw [Nat.pow_succ, ← Nat.mul_assoc, ofScaled_mul_ten hpos, ih]
      congr 1
      push_cast
      ring

/-- A decimal is determined by its value. -/
theorem Decimal.ofScaled_congr (hn : n ≠ 0) (hm : m ≠ 0)
    (h : (n : ℚ) * 10 ^ exponent = m * 10 ^ exponent') :
    Decimal.ofScaled n exponent = Decimal.ofScaled m exponent' := by
  wlog hle : exponent ≤ exponent' generalizing n m exponent exponent'
  · exact (this hm hn h.symm (by omega)).symm
  obtain ⟨zeros, rfl⟩ : ∃ zeros : ℕ, exponent' = exponent + zeros :=
    ⟨(exponent' - exponent).toNat, by omega⟩
  have hten : (10 : ℚ) ≠ 0 := by norm_num
  have hscale : (10 : ℚ) ^ exponent ≠ 0 := zpow_ne_zero exponent hten
  rw [zpow_add₀ hten, zpow_natCast, mul_left_comm, mul_comm (n : ℚ)] at h
  obtain rfl : n = m * 10 ^ zeros := by
    exact_mod_cast mul_left_cancel₀ hscale h
  exact ofScaled_mul_pow hm zeros exponent

/-- The digits that are left when the zeros at the end are taken off say the number at
another scale. -/
theorem Decimal.exists_ofScaled (hn : n ≠ 0) (exponent : ℤ) :
    ∃ ds first, ds ≠ [] ∧ (∀ d ∈ ds, d < 10) ∧
      Decimal.ofScaled n exponent = ⟨plainDigits ds, first⟩ ∧
      (natOf ds : ℚ) * 10 ^ (first + 1 - ds.length) = n * 10 ^ exponent := by
  -- without the zeros at its end the number ends with another digit
  obtain ⟨zeros, m, hm, rfl⟩ := Nat.exists_eq_pow_mul_and_not_dvd hn 10 (by decide)
  have hmpos : m ≠ 0 := by
    rintro rfl
    exact hm (dvd_zero 10)
  obtain ⟨ds, hne, hlt, hdigits, hvalue⟩ := toDigits_eq_plainDigits m
  have hlast : ∃ c cs, (Nat.toDigits 10 m).reverse = c :: cs ∧ c ≠ '0' := by
    rcases Nat.lt_or_ge m 10 with hsmall | hlarge
    · refine ⟨Nat.digitChar m, [], ?_, ?_⟩
      · rw [Nat.toDigits_of_lt_base hsmall, List.reverse_singleton]
      · intro hzero
        have hback := Nat.toNat_digitChar_sub_48_of_lt_ten hsmall
        rw [hzero] at hback
        exact hmpos hback.symm
    · refine ⟨Nat.digitChar (m % 10), (Nat.toDigits 10 (m / 10)).reverse, ?_, ?_⟩
      · rw [Nat.toDigits_of_base_le (by decide) hlarge, List.reverse_append, List.reverse_singleton,
          List.singleton_append]
      · intro hzero
        have hback := Nat.toNat_digitChar_sub_48_of_lt_ten (Nat.mod_lt m (by decide : 0 < 10))
        rw [hzero] at hback
        exact hm (Nat.dvd_of_mod_eq_zero hback.symm)
  obtain ⟨c, cs, hreverse, hc⟩ := hlast
  have hkept : (((Nat.toDigits 10 m).reverse.dropWhile (· = '0')).reverse) = Nat.toDigits 10 m := by
    rw [hreverse, List.dropWhile_cons_of_neg (by simpa using hc), ← hreverse, List.reverse_reverse]
  have hlength : decimalLength m = ds.length := by
    unfold decimalLength
    rw [hdigits, length_plainDigits]
  refine ⟨ds, exponent + zeros + (ds.length - 1), hne, hlt, ?_, ?_⟩
  · rw [Nat.mul_comm, ofScaled_mul_pow hmpos]
    unfold ofScaled
    rw [hkept, hdigits, hlength]
  · have hten : (10 : ℚ) ≠ 0 := by norm_num
    have hexponent : exponent + zeros + (ds.length - 1 : ℤ) + 1 - ds.length = exponent + zeros := by
      ring
    rw [hexponent, hvalue, zpow_add₀ hten, zpow_natCast]
    push_cast
    ring

end Scaled

/-! ## Layouts -/

namespace Layout

variable {ds : List ℕ} {first : ℤ}

/-- A literal without a sign says a number. -/
def Says (text : List Char) (q : ℚ) : Prop :=
  ∃ n : Numeral, n.negative = false ∧ n.Spells text ∧ n.magnitude = q

theorem Says.number? {text : List Char} {q : ℚ} (h : Says text q) : number? text = some q := by
  obtain ⟨n, hsign, hspells, rfl⟩ := h
  rw [hspells.number?_eq, Numeral.number, hsign]
  simp

/-- Digits alone. -/
theorem says_plain (hne : ds ≠ []) (hlt : ∀ d ∈ ds, d < 10) : Says (plainDigits ds) (natOf ds) := by
  refine ⟨⟨false, ds, [], 0⟩, rfl, ⟨[], plainDigits ds, [], ?_, .none,
    .plain (run_plainDigits hne hlt), .none⟩, ?_⟩
  · rw [List.nil_append, List.append_nil]
  · simp [magnitude, digits, scale]

/-- Digits on both sides of a point. -/
theorem says_pointed {whole fraction : List ℕ} (hwhole : whole ≠ []) (hfraction : fraction ≠ [])
    (hlt : ∀ d ∈ whole ++ fraction, d < 10) :
    Says (plainDigits whole ++ '.' :: plainDigits fraction)
      (natOf (whole ++ fraction) * 10 ^ (-fraction.length : ℤ)) := by
  obtain ⟨hlt, hlt'⟩ := List.forall_mem_append.1 hlt
  refine ⟨⟨false, whole, fraction, 0⟩, rfl, ⟨[], _, [], ?_, .none,
    .pointed (.inl (run_plainDigits hwhole hlt)) (.inl (run_plainDigits hfraction hlt')) ?_,
    .none⟩, ?_⟩
  · rw [List.nil_append, List.append_nil]
  · exact List.append_ne_nil_of_left_ne_nil hwhole fraction
  · simp [magnitude, digits, scale]

/-- A point in front of all digits, with zeros between. -/
theorem says_below_one (keeps : Layout) (hne : ds ≠ []) (hlt : ∀ d ∈ ds, d < 10)
    (hfirst : first < 0) :
    Says (keeps.positional ⟨plainDigits ds, first⟩)
      (natOf ds * 10 ^ (first + 1 - ds.length)) := by
  have hzeros : ∃ zeros : ℕ, first = -(zeros : ℤ) - 1 := ⟨(-first - 1).toNat, by omega⟩
  obtain ⟨zeros, rfl⟩ := hzeros
  have hcount : (-(-(zeros : ℤ) - 1) - 1).toNat = zeros := by omega
  have hsays := @says_pointed [0] (List.replicate zeros 0 ++ ds) (by simp) (by simp [hne])
    (lt_ten_append (by simp) (lt_ten_append (lt_ten_zeros zeros) hlt))
  have htext : keeps.positional ⟨plainDigits ds, -(zeros : ℤ) - 1⟩ =
      plainDigits [0] ++ '.' :: plainDigits (List.replicate zeros 0 ++ ds) := by
    unfold positional
    rw [if_pos hfirst, hcount, plainDigits_append, plainDigits_zeros]
    rfl
  have hvalue : natOf ([0] ++ (List.replicate zeros 0 ++ ds)) = natOf ds := by
    rw [natOf_append, natOf_append, natOf_zeros]
    simp [natOf]
  have hexponent : -((List.replicate zeros 0 ++ ds).length : ℤ) =
      -(zeros : ℤ) - 1 + 1 - ds.length := by
    rw [List.length_append, List.length_replicate]
    push_cast
    ring
  rw [htext, ← hexponent, ← hvalue]
  exact hsays

/-- Zeros behind the digits, with at most one behind a point. -/
theorem says_whole (keeps : Layout) (hne : ds ≠ []) (hlt : ∀ d ∈ ds, d < 10) (zeros : ℕ) :
    Says
      (plainDigits ds ++ List.replicate zeros '0' ++ if keeps.keepFraction then ['.', '0'] else [])
      (natOf ds * 10 ^ (zeros : ℤ)) := by
  have hlt' := lt_ten_append hlt (lt_ten_zeros zeros)
  have hne' : ds ++ List.replicate zeros 0 ≠ [] := List.append_ne_nil_of_left_ne_nil hne _
  have hvalue : (natOf (ds ++ List.replicate zeros 0) : ℚ) = natOf ds * 10 ^ (zeros : ℤ) := by
    rw [natOf_append, natOf_zeros, List.length_replicate, zpow_natCast]
    push_cast
    ring
  rw [← plainDigits_zeros, ← plainDigits_append]
  cases keeps.keepFraction with
  | true =>
      have hsays := @says_pointed _ [0] hne' (by simp) (lt_ten_append hlt' (by simp))
      have htenth :
          (natOf (ds ++ List.replicate zeros 0 ++ [0]) : ℚ) * 10 ^ (-([0] : List ℕ).length : ℤ) =
            natOf ds * 10 ^ (zeros : ℤ) := by
        rw [natOf_append, ← hvalue]
        simp [natOf]
      rw [htenth] at hsays
      exact hsays
  | false =>
      rw [← hvalue, if_neg (by decide), List.append_nil]
      exact says_plain hne' hlt'

/-- A point among the digits or behind them. -/
theorem says_above_one (keeps : Layout) (hne : ds ≠ []) (hlt : ∀ d ∈ ds, d < 10)
    (hfirst : ¬first < 0) :
    Says (keeps.positional ⟨plainDigits ds, first⟩)
      (natOf ds * 10 ^ (first + 1 - ds.length)) := by
  obtain ⟨whole, rfl⟩ : ∃ whole : ℕ, first = whole := ⟨first.toNat, by omega⟩
  unfold positional
  rw [if_neg hfirst]
  dsimp only
  rw [Int.toNat_natCast]
  have hdrop : (plainDigits ds).drop (whole + 1) = plainDigits (ds.drop (whole + 1)) :=
    List.map_drop.symm
  have htake : (plainDigits ds).take (whole + 1) = plainDigits (ds.take (whole + 1)) :=
    List.map_take.symm
  rw [hdrop, htake, length_plainDigits]
  rcases Nat.lt_or_ge (whole + 1) ds.length with hinside | hbehind
  · have hfraction : ds.drop (whole + 1) ≠ [] := by simpa using hinside
    have hnone : whole + 1 - ds.length = 0 := by omega
    have hexponent : -((ds.drop (whole + 1)).length : ℤ) = whole + 1 - ds.length := by
      rw [List.length_drop]
      omega
    have hsays := @says_pointed (ds.take (whole + 1)) (ds.drop (whole + 1)) (by simpa using hne)
      hfraction (by rwa [List.take_append_drop])
    rw [List.take_append_drop, hexponent] at hsays
    rw [if_pos (plainDigits_eq_nil_iff.not.2 hfraction), hnone, List.replicate_zero,
      List.append_nil]
    exact hsays
  · have hall : ds.take (whole + 1) = ds := List.take_of_length_le hbehind
    have hnone : ds.drop (whole + 1) = [] := List.drop_eq_nil_of_le hbehind
    have hexponent : (whole + 1 - ds.length : ℤ) = (whole + 1 - ds.length : ℕ) := by omega
    rw [hall, hnone, if_neg (by simp [plainDigits]), hexponent]
    exact says_whole keeps hne hlt _

/-- The power of ten behind the letter. -/
theorem exponent_written (first : ℤ) :
    Exponent first (['e', if first < 0 then '-' else '+'] ++
      List.replicate (2 - (Nat.toDigits 10 first.natAbs).length) '0' ++
        Nat.toDigits 10 first.natAbs) := by
  obtain ⟨ds, hne, hlt, hdigits, hvalue⟩ := toDigits_eq_plainDigits first.natAbs
  generalize 2 - (Nat.toDigits 10 first.natAbs).length = zeros
  have hrun := run_plainDigits (List.append_ne_nil_of_right_ne_nil (List.replicate zeros 0) hne)
    (lt_ten_append (lt_ten_zeros zeros) hlt)
  have hpadded : natOf (List.replicate zeros 0 ++ ds) = first.natAbs := by
    rw [natOf_append, natOf_zeros, Nat.zero_mul, Nat.zero_add, hvalue]
  rw [plainDigits_append, plainDigits_zeros, ← hdigits] at hrun
  rw [List.append_assoc]
  by_cases hnegative : first < 0
  · have hmarked := Exponent.marked (.inl rfl : 'e' = 'e' ∨ 'e' = 'E') .minus hrun
    rw [hpadded, if_pos rfl] at hmarked
    rw [if_pos hnegative]
    have hsame : -(first.natAbs : ℤ) = first := by omega
    rwa [hsame] at hmarked
  · have hmarked := Exponent.marked (.inl rfl : 'e' = 'e' ∨ 'e' = 'E') .plus hrun
    rw [hpadded, if_neg (by decide)] at hmarked
    rw [if_neg hnegative]
    have hsame : (first.natAbs : ℤ) = first := by omega
    rwa [hsame] at hmarked

/-- One digit in front of the point and the power of ten behind. -/
theorem says_scientific (hne : ds ≠ []) (hlt : ∀ d ∈ ds, d < 10) :
    Says (scientific ⟨plainDigits ds, first⟩) (natOf ds * 10 ^ (first + 1 - ds.length)) := by
  obtain ⟨d, rest, rfl⟩ := List.exists_cons_of_ne_nil hne
  obtain ⟨hd, hrest⟩ := List.forall_mem_cons.1 hlt
  have hfirst : Run [d] (plainDigits [d]) := run_plainDigits (by simp) (by simpa using hd)
  have hmantissa : Mantissa [d] rest (plainDigits [d] ++
      if (plainDigits (d :: rest)).length ≤ 1 then [] else '.' :: plainDigits rest) := by
    rw [length_plainDigits]
    cases rest with
    | nil =>
        rw [if_pos (by simp), List.append_nil]
        exact .plain hfirst
    | cons e rest =>
        rw [if_neg (by simp)]
        exact .pointed (.inl hfirst) (.inl (run_plainDigits (by simp) hrest)) (by simp)
  refine ⟨⟨false, [d], rest, first⟩, rfl,
    ⟨[], _, _, ?_, .none, hmantissa, exponent_written first⟩, ?_⟩
  · unfold scientific
    simp only [plainDigits, List.map_cons, List.map_nil, List.take_succ_cons, List.take_zero,
      List.drop_succ_cons, List.drop_zero, List.append_assoc, List.nil_append, List.cons_append]
  · unfold magnitude digits scale
    have hexponent : first - (rest.length : ℤ) = first + 1 - (d :: rest).length := by
      rw [List.length_cons]
      push_cast
      ring
    rw [List.singleton_append]
    dsimp only
    rw [hexponent]

/-- What is written of a decimal is a literal that says it. -/
theorem says_write (keeps : Layout) (hne : ds ≠ []) (hlt : ∀ d ∈ ds, d < 10) :
    Says (keeps.write ⟨plainDigits ds, first⟩) (natOf ds * 10 ^ (first + 1 - ds.length)) := by
  unfold write
  split
  · by_cases hfirst : first < 0
    · exact says_below_one keeps hne hlt hfirst
    · exact says_above_one keeps hne hlt hfirst
  · exact says_scientific hne hlt

/-- A scaled number is written as a literal that says its value. -/
theorem says_ofScaled (keeps : Layout) {n : ℕ} (hn : n ≠ 0) (exponent : ℤ) :
    Says (keeps.write (.ofScaled n exponent)) (n * 10 ^ exponent) := by
  obtain ⟨ds, first, hne, hlt, hdecimal, hvalue⟩ := Decimal.exists_ofScaled hn exponent
  rw [hdecimal, ← hvalue]
  exact says_write keeps hne hlt

end Layout

end AlgoBox.Numeric
