import AlgoBox.Proofs.LengthRounding
import AlgoBox.Proofs.Lengths
import AlgoBox.Proofs.Notation

/-!
# Formatted lengths

A length that is written is a number literal (`says_format`). With its unit it is read again,
and what is read is written in the same way. What is written is off by little, and a larger length
is never written as a smaller number (`Em.lengths_written_faithfully`).
-/

namespace AlgoBox

open Numeric Binary64

/-- The exact value of a finite double. -/
def Numeric.Binary64.exactValue : Binary64 → ℚ
  | .finite negative rank => if negative then -value rank else value rank
  | _ => 0

namespace Em

-- powers of naturals are the core ones, as in the definition of a double
attribute [local instance (high)] instPowNat

variable {rank rank' count : ℕ}

/-- The rank of a length that is rounded to four places. -/
def rounded (rank : ℕ) : ℕ := rankOfTenThousandths (tenThousandths rank)

/-- What is written of a length. -/
def formatted (rank : ℕ) : ℚ := if rounded rank = 0 then 0 else written (rounded rank)

theorem format_finite (negative : Bool) (rank : Fin infinityRank) :
    format (.finite negative rank) =
      if rounded rank = 0 then "0"
      else signed negative (String.ofList (layout.write (sixDigits (rounded rank)))) :=
  rfl

/-! ## Rounded lengths -/

theorem isNearest_rounded (rank : ℕ) :
    IsNearest (tenThousandths rank / 10000) (rounded rank) :=
  isNearest_rankOfTenThousandths (tenThousandths rank)

theorem rounded_mono (h : rank ≤ rank') : rounded rank ≤ rounded rank' :=
  rankOfTenThousandths_mono (tenThousandths_mono h)

/-- The least double of full precision is far below four places. -/
theorem value_binadeSize_le : value binadeSize ≤ 1 / 10000 := by
  have hunits : units binadeSize * 10000 ≤ unitsPerOne := by
    unfold unitsPerOne
    calc units binadeSize * 10000 ≤ 2 ^ 66 := by decide
      _ ≤ 2 ^ 1074 := Nat.pow_le_pow_right (by decide) (by decide)
  have hone : (0 : ℚ) < unitsPerOne := Nat.cast_pos.2 unitsPerOne_pos
  unfold value
  generalize units binadeSize = least at *
  generalize unitsPerOne = one at *
  rw [div_le_div_iff₀ hone (by norm_num)]
  norm_cast
  omega

/-- Only what has no four places is written as zero. -/
theorem rounded_eq_zero_iff : rounded rank = 0 ↔ tenThousandths rank = 0 := by
  have hnearest := isNearest_rounded rank
  constructor
  · intro hzero
    by_contra hcount
    have hpos : (1 : ℚ) / 10000 ≤ tenThousandths rank / 10000 := by
      refine div_le_div_of_nonneg_right ?_ (by norm_num)
      exact_mod_cast Nat.pos_of_ne_zero hcount
    have hrank := hnearest.le_rank (value_binadeSize_le.trans hpos)
    have hsize := binadeSize_pos
    omega
  · intro hcount
    rw [hcount, Nat.cast_zero, zero_div, ← value_zero] at hnearest
    exact hnearest.unique (isNearest_value 0)

theorem rounded_zero : rounded 0 = 0 := by
  have hround := roundsTo_tenThousandths 0
  have hzero := RoundsTo.of_mul 0 unitsPerOne_pos
  rw [units_zero, Nat.zero_mul] at hround
  rw [Nat.zero_mul] at hzero
  exact rounded_eq_zero_iff.2 (hround.unique unitsPerOne_pos hzero)

/-- A double with full precision is off by next to nothing. -/
theorem abs_value_sub_le {q : ℚ} (h : IsNearest q rank) (hq : 1 / 10000 ≤ q) :
    |value rank - q| ≤ q / 10 ^ 15 := by
  have herror := h.abs_sub_le (value_binadeSize_le.trans hq)
  have hsize : (10 ^ 15 : ℚ) ≤ 2 * binadeSize := by
    have hnat : 10 ^ 15 ≤ 2 * binadeSize := by decide
    exact_mod_cast hnat
  rw [le_div_iff₀ (by norm_num)]
  exact (mul_le_mul_of_nonneg_left hsize (abs_nonneg _)).trans herror

/-- The double nearest to six digits is nearer than any place behind them. -/
theorem near_of_isNearest {place : ℤ} (hcount : count ≤ 10 ^ 6)
    (h : IsNearest (count * 10 ^ place) rank) (hlarge : (1 : ℚ) / 10000 ≤ count * 10 ^ place) :
    |value rank - count * 10 ^ place| < 10 ^ place / 20 := by
  have hunit : (0 : ℚ) < 10 ^ place := zpow_pos (by norm_num) _
  have hle : (count : ℚ) * 10 ^ place ≤ 10 ^ 6 * 10 ^ place :=
    mul_le_mul_of_nonneg_right (by exact_mod_cast hcount) hunit.le
  refine (abs_value_sub_le h hlarge).trans_lt ?_
  linarith

section Positive

variable (h : rounded rank ≠ 0)
include h

theorem one_le_tenThousandths : (1 : ℚ) / 10000 ≤ tenThousandths rank / 10000 := by
  refine div_le_div_of_nonneg_right ?_ (by norm_num)
  exact_mod_cast Nat.pos_of_ne_zero (rounded_eq_zero_iff.not.1 h)

theorem abs_value_rounded_sub_le :
    |value (rounded rank) - tenThousandths rank / 10000| ≤ tenThousandths rank / 10000 / 10 ^ 15 :=
  abs_value_sub_le (isNearest_rounded rank) (one_le_tenThousandths h)

theorem hasSixDigits_rounded : HasSixDigits (rounded rank) := by
  have hcount := one_le_tenThousandths h
  obtain ⟨hbelow, -⟩ := abs_le.1 (abs_value_rounded_sub_le h)
  have hplace : (10 : ℚ) ^ (-5 : ℤ) = 1 / 100000 := by norm_num
  refine hasSixDigits_of_le ?_
  rw [hplace]
  generalize value (rounded rank) = double at *
  generalize (tenThousandths rank : ℚ) / 10000 = places at *
  linarith

end Positive

/-! ## What is written -/

theorem formatted_mono (h : rank ≤ rank') : formatted rank ≤ formatted rank' := by
  have hle := rounded_mono h
  have hnonneg : ∀ r, 0 ≤ written r := fun r =>
    mul_nonneg (Nat.cast_nonneg _) (zpow_pos (by norm_num) _).le
  unfold formatted
  by_cases hzero : rounded rank = 0
  · rw [if_pos hzero]
    split
    · exact le_rfl
    · exact hnonneg _
  · have hzero' : rounded rank' ≠ 0 := by omega
    rw [if_neg hzero, if_neg hzero']
    exact written_mono (hasSixDigits_rounded hzero) (hasSixDigits_rounded hzero') hle

/-- Both roundings together are off by little. -/
theorem abs_formatted_sub_le (rank : ℕ) :
    |formatted rank - value rank| ≤ 10 ^ (-4 : ℤ) + 10 ^ (-5 : ℤ) * value rank := by
  have hplaces := abs_le.1 (abs_tenThousandths_sub_le rank)
  have hvalue : 0 ≤ value rank := div_nonneg (Nat.cast_nonneg _) (Nat.cast_nonneg _)
  unfold formatted
  by_cases hzero : rounded rank = 0
  · have hcount := rounded_eq_zero_iff.1 hzero
    rw [hcount] at hplaces
    rw [if_pos hzero, abs_le]
    norm_num at hplaces ⊢
    constructor <;> linarith
  · have hdouble := abs_le.1 (abs_value_rounded_sub_le hzero)
    have hdigits := abs_le.1 (abs_written_sub_le (rounded rank))
    have hbound := (value_bounds (hasSixDigits_rounded hzero)).1
    rw [if_neg hzero, abs_le]
    generalize written (rounded rank) = six at *
    generalize value (rounded rank) = double at *
    generalize (tenThousandths rank : ℚ) = places at *
    norm_num at hplaces hdouble hbound ⊢
    constructor <;> linarith

/-- What is written says what it should say. -/
theorem says_format {negative : Bool} {rank : Fin infinityRank}
    (h : (Binary64.finite negative rank).isNegative = false) :
    Layout.Says (format (.finite negative rank)).toList (formatted rank) := by
  rw [format_finite]
  unfold formatted
  by_cases hzero : rounded rank = 0
  · have hsays : Layout.Says (Literal.plainDigits [0]) (natOf [0]) :=
      Layout.says_plain (by simp) (by simp)
    rw [if_pos hzero, if_pos hzero]
    have hvalue : (natOf [0] : ℚ) = 0 := by simp [natOf]
    rw [hvalue] at hsays
    exact hsays
  · have hsign : negative = false := by
      have hrank : rank.val ≠ 0 := by
        intro hrank
        rw [hrank] at hzero
        exact hzero rounded_zero
      simpa [isNegative, hrank] using h
    have hleading : leading (rounded rank) ≠ 0 := by
      have hlow := (leading_bounds (hasSixDigits_rounded hzero)).1
      have hpos : 0 < 10 ^ 5 := by decide
      omega
    subst hsign
    rw [if_neg hzero, if_neg hzero]
    show Layout.Says (String.ofList (layout.write (sixDigits (rounded rank)))).toList _
    rw [String.toList_ofList, sixDigits_eq]
    exact Layout.says_ofScaled layout hleading _

/-! ## What is read again -/

/-- What is written of a finite length is not above the largest finite double. -/
theorem formatted_le (hrank : rank < infinityRank) :
    formatted rank ≤ value (infinityRank - 1) := by
  have hlargest : rounded (infinityRank - 1) = infinityRank - 1 ∧
      leading (infinityRank - 1) = 179769 ∧ lastPlace (infinityRank - 1) = 303 ∧
      179769 * 10 ^ 303 * unitsPerOne ≤ units (infinityRank - 1) := by
    decide +kernel
  obtain ⟨hrounded, hleading, hplace, hunits⟩ := hlargest
  have hne : rounded (infinityRank - 1) ≠ 0 := by
    rw [hrounded]
    unfold infinityRank binadeSize
    omega
  have hone : (0 : ℚ) < unitsPerOne := Nat.cast_pos.2 unitsPerOne_pos
  refine (formatted_mono (Nat.le_sub_one_of_lt hrank)).trans ?_
  unfold formatted
  rw [if_neg hne, hrounded, written, hleading, hplace]
  unfold value
  rw [le_div_iff₀ hone]
  generalize units (infinityRank - 1) = largest at *
  generalize unitsPerOne = one at *
  exact_mod_cast hunits

/-- What is written is a whole number of four places. -/
theorem exists_formatted_eq (rank : ℕ) : ∃ count : ℕ, formatted rank = count / 10000 := by
  unfold formatted
  by_cases hzero : rounded rank = 0
  · exact ⟨0, by rw [if_pos hzero]; simp⟩
  rw [if_neg hzero]
  have hsix := hasSixDigits_rounded hzero
  have hdouble := abs_value_rounded_sub_le hzero
  have hten : (10 : ℚ) ≠ 0 := by norm_num
  rcases Nat.lt_or_ge (10 ^ 6) (tenThousandths rank) with hlarge | hsmall
  · -- the last of six digits is not behind the last of four places
    have hplace : -4 ≤ lastPlace (rounded rank) := by
      by_contra hlow
      have hscale : (10 : ℚ) ^ lastPlace (rounded rank) ≤ 10 ^ (-5 : ℤ) :=
        zpow_le_zpow_right₀ (by norm_num) (by omega)
      have hvalue := (value_bounds hsix).2
      have hcount : (10 ^ 6 : ℚ) ≤ tenThousandths rank := by exact_mod_cast hlarge.le
      obtain ⟨hbelow, -⟩ := abs_le.1 hdouble
      norm_num at hscale
      linarith
    obtain ⟨zeros, hzeros⟩ : ∃ zeros : ℕ, lastPlace (rounded rank) = zeros + -4 :=
      ⟨(lastPlace (rounded rank) + 4).toNat, by omega⟩
    refine ⟨leading (rounded rank) * 10 ^ zeros, ?_⟩
    rw [written, hzeros, zpow_add₀ hten, zpow_natCast]
    push_cast
    norm_num
    ring
  · -- four places have no more than six digits
    refine ⟨tenThousandths rank, ?_⟩
    obtain ⟨zeros, hlow, hhigh⟩ := exists_zeros (rounded_eq_zero_iff.not.1 hzero) hsmall
    have hvalue : ((tenThousandths rank * 10 ^ zeros : ℕ) : ℚ) * 10 ^ (-4 - zeros : ℤ) =
        tenThousandths rank / 10000 := by
      rw [zpow_sub₀ hten, zpow_natCast]
      have hscale : (10 : ℚ) ^ zeros ≠ 0 := pow_ne_zero _ hten
      generalize tenThousandths rank = count
      push_cast
      field_simp
      norm_num
    have hnearest := isNearest_rounded rank
    have hlarge := one_le_tenThousandths hzero
    rw [← hvalue] at hnearest hlarge ⊢
    exact written_eq_of_near hsix hlow hhigh (near_of_isNearest hhigh hnearest hlarge)

theorem leading_pos (h : HasSixDigits rank) : 0 < leading rank :=
  Nat.lt_of_lt_of_le (by decide) (leading_bounds h).1

/-- What is written of a length is the same for the double that it is read as. -/
theorem format_of_isNearest {rank read : Fin infinityRank} (h : IsNearest (formatted rank) read) :
    format (.finite false read) = format (.finite false rank) := by
  obtain ⟨count, hcount⟩ := exists_formatted_eq rank
  have hagain : rounded read = read := rankOfTenThousandths_tenThousandths (hcount ▸ h)
  rw [format_finite, format_finite, hagain]
  unfold formatted at h hcount
  by_cases hzero : rounded rank = 0
  · rw [if_pos hzero, ← value_zero] at h
    rw [if_pos hzero, if_pos (h.unique (isNearest_value 0))]
  rw [if_neg hzero] at h hcount
  have hsix := hasSixDigits_rounded hzero
  have hpos : 0 < written (rounded rank) :=
    mul_pos (Nat.cast_pos.2 (leading_pos hsix)) (zpow_pos (by norm_num) _)
  -- a number of four places that is not zero is large enough
  have hlarge : 1 / 10000 ≤ written (rounded rank) := by
    rw [hcount] at hpos ⊢
    have hone : 0 < count := by
      by_contra hnone
      obtain rfl : count = 0 := by omega
      simp at hpos
    refine div_le_div_of_nonneg_right ?_ (by norm_num)
    exact_mod_cast hone
  have hread : (read : ℕ) ≠ 0 := by
    intro hnone
    have hrank := h.le_rank (value_binadeSize_le.trans hlarge)
    have hsize := binadeSize_pos
    omega
  have hsix' : HasSixDigits read := by
    rw [← hagain] at hread ⊢
    exact hasSixDigits_rounded hread
  obtain ⟨hlow, hhigh⟩ := leading_bounds hsix
  have hsame : written read = written (rounded rank) :=
    written_eq_of_near hsix' hlow hhigh (near_of_isNearest hhigh h hlarge)
  have hdigits : sixDigits read = sixDigits (rounded rank) :=
    Decimal.ofScaled_congr (leading_pos hsix').ne' (leading_pos hsix).ne' hsame
  rw [if_neg hzero, if_neg hread, hdigits]

/-- What is written of a finite length is read as a finite double. -/
theorem lt_infinityRank_of_isNearest {read : ℕ} (hrank : rank < infinityRank)
    (h : IsNearest (formatted rank) read) : read < infinityRank := by
  have hle : read ≤ infinityRank - 1 := h.le_of_le (isNearest_value _) (formatted_le hrank)
  exact Nat.lt_of_le_sub_one (Nat.zero_lt_of_lt hrank) hle

/-- Only the negative zero has a sign and is not below zero. -/
theorem format_of_not_isNegative {negative : Bool} {rank : Fin infinityRank}
    (h : (Binary64.finite negative rank).isNegative = false) :
    format (.finite negative rank) = format (.finite false rank) := by
  cases negative with
  | false => rfl
  | true =>
      have hzero : rank.val = 0 := by simpa [isNegative] using h
      rw [format_finite, format_finite, hzero, if_pos rounded_zero, if_pos rounded_zero]

/-- What is written of a length is read, and written in the same way again. -/
theorem exists_parse_format {negative : Bool} {rank : Fin infinityRank}
    (h : (Binary64.finite negative rank).isNegative = false) :
    ∃ y, parse (.text (format (.finite negative rank) ++ "em")) = .ok y ∧
      format y = format (.finite negative rank) := by
  obtain ⟨n, hsign, hspells, hvalue⟩ := says_format h
  obtain ⟨read, hnearest⟩ := exists_isNearest n.digits n.scale
  have hformatted : IsNearest (formatted rank) read := hvalue ▸ hnearest
  have hfinite := lt_infinityRank_of_isNearest rank.isLt hformatted
  have hread : ofRank n.negative read = .finite false ⟨read, hfinite⟩ := by
    unfold ofRank
    rw [dif_pos hfinite, hsign]
  refine ⟨.finite false ⟨read, hfinite⟩, ?_, ?_⟩
  · have htext : (format (.finite negative rank) ++ "em").toList =
        [] ++ ((format (.finite negative rank)).toList ++ [] ++ unit) ++ [] := by
      have hunit : "em".toList = unit := by decide
      rw [String.toList_append, hunit, List.append_nil, List.append_nil, List.nil_append]
    exact parse_text_iff.2 ⟨[], _, [], [], n, htext, List.forall_mem_nil _, List.forall_mem_nil _,
      List.forall_mem_nil _, hspells, ⟨read, hnearest, hread.symm⟩, rfl, rfl⟩
  · rw [format_of_not_isNegative h]
    exact format_of_isNearest hformatted

/-- A finite length is written as a number literal that is read again, and what is read is
written in the same way. The number that is written is off by little, and for a larger length it
is not smaller. -/
theorem lengths_written_faithfully {x : Binary64} (hfinite : x.isFinite = true)
    (hx : x.isNegative = false) :
    (∃ y, parse (.text (format x ++ "em")) = .ok y ∧ format y = format x) ∧
    ∃ q, Literal.number? (format x).toList = some q ∧
      |q - x.exactValue| ≤ 10 ^ (-4 : ℤ) + 10 ^ (-5 : ℤ) * x.exactValue ∧
      ∀ z, z.isFinite = true → z.isNegative = false → x.exactValue ≤ z.exactValue →
        ∃ q', Literal.number? (format z).toList = some q' ∧ q ≤ q' := by
  have hexact : ∀ {negative : Bool} {rank : Fin infinityRank},
      (Binary64.finite negative rank).isNegative = false →
        (Binary64.finite negative rank).exactValue = value rank := by
    intro negative rank h
    unfold exactValue
    cases negative with
    | false => rfl
    | true =>
        have hzero : rank.val = 0 := by simpa [isNegative] using h
        simp [hzero, value_zero]
  cases x with
  | nan | infinite => cases hfinite
  | finite negative rank =>
      refine ⟨exists_parse_format hx, formatted rank, (says_format hx).number?, ?_, ?_⟩
      · rw [hexact hx]
        exact abs_formatted_sub_le rank
      · intro z hzfinite hz hle
        cases z with
        | nan | infinite => cases hzfinite
        | finite negative' rank' =>
            rw [hexact hx, hexact hz] at hle
            exact ⟨_, (says_format hz).number?, formatted_mono (strictMono_value.le_iff_le.1 hle)⟩

/-- The double of 999999.5 reaches a new digit and is written with an exponent. -/
theorem lengths_written_faithfully_at_carry :
    let x : Binary64 := .finite false ⟨4696837142389719040, by decide⟩
    let z : Binary64 := .finite false ⟨infinityRank - 1, by decide⟩
    format x = "1e+06" ∧ x.exactValue ≤ z.exactValue ∧
    (∃ y, parse (.text (format x ++ "em")) = .ok y ∧ format y = format x) ∧
    ∃ q, Literal.number? (format x).toList = some q ∧
      |q - x.exactValue| ≤ 10 ^ (-4 : ℤ) + 10 ^ (-5 : ℤ) * x.exactValue ∧
      ∃ q', Literal.number? (format z).toList = some q' ∧ q ≤ q' := by
  intro x z
  have hle : x.exactValue ≤ z.exactValue := by
    have hranks : 4696837142389719040 ≤ infinityRank - 1 := by decide
    exact strictMono_value.monotone hranks
  obtain ⟨hread, q, hq, hnear, hlater⟩ :=
    lengths_written_faithfully (x := x) rfl rfl
  exact ⟨by decide +kernel, hle, hread, q, hq, hnear, hlater z rfl rfl hle⟩

end Em

end AlgoBox
