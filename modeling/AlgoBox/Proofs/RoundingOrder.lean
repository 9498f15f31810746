import AlgoBox.Proofs.Rounding

/-!
# Rounding keeps the order and errs little

A larger number never has a smaller nearest rank (`IsNearest.le_of_le`), and a larger quotient is
never rounded to a smaller natural (`RoundsTo.le_of_le`).

A rounded quotient is off by at most a half (`RoundsTo.abs_sub_le`), and the double of a number
with full precision by at most half a unit of its last place (`IsNearest.abs_sub_le`). Numbers from
one bound on are rounded to no finite double (`IsNearest.lt_infinityRank_iff`).
-/

namespace AlgoBox.Numeric

-- powers of naturals are the core ones, as in the definition of a double
attribute [local instance (high)] instPowNat

/-! ## Rounded quotients -/

section Quotients

variable {num num' den n n' : ℕ}

theorem RoundsTo.le_of_le (hden : 0 < den) (h : RoundsTo num den n) (h' : RoundsTo num' den n')
    (hle : num ≤ num') : n ≤ n' := by
  by_contra hlt
  obtain ⟨k, rfl⟩ : ∃ k, n = n' + 1 + k := ⟨n - (n' + 1), by omega⟩
  have hbelow := h.below
  have habove := h'.above
  have hupper : 2 * (n' + 1 + k) * den = (2 * n' + 1) * den + den + 2 * (k * den) := by ring
  -- both are halfway between two naturals, and one of these is odd
  have hk : k * den = 0 := by omega
  have hzero : k = 0 := (Nat.mul_eq_zero.1 hk).resolve_right hden.ne'
  subst hzero
  have heven := h.even_below (by omega)
  have heven' := h'.even_above (by omega)
  omega

/-- The natural that a quotient is rounded to is determined by the quotient. -/
theorem RoundsTo.unique (hden : 0 < den) (h : RoundsTo num den n) (h' : RoundsTo num den n') :
    n = n' :=
  Nat.le_antisymm (h.le_of_le hden h' le_rfl) (h'.le_of_le hden h le_rfl)

/-- A natural that is less than half a unit away is the one that is rounded to. -/
theorem RoundsTo.eq_of_lt (h : RoundsTo num den n) (habove : 2 * num < (2 * n' + 1) * den)
    (hbelow : 2 * n' * den < 2 * num + den) : n = n' := by
  have hle : 2 * n * den < (2 * n' + 2) * den := by
    have hnear := h.below
    linarith
  have hge : 2 * n' * den < (2 * n + 2) * den := by
    have hnear := h.above
    linarith
  have hlt := Nat.lt_of_mul_lt_mul_right hle
  have hgt := Nat.lt_of_mul_lt_mul_right hge
  omega

/-- A natural quotient is not changed. -/
theorem RoundsTo.of_mul (n : ℕ) {den : ℕ} (hden : 0 < den) : RoundsTo (n * den) den n := by
  have hodd : (2 * n + 1) * den = 2 * (n * den) + den := by ring
  have heven : 2 * n * den = 2 * (n * den) := by ring
  constructor <;> omega

theorem RoundsTo.abs_sub_le (hden : 0 < den) (h : RoundsTo num den n) :
    |(n : ℚ) - num / den| ≤ 1 / 2 := by
  have hpos : (0 : ℚ) < den := Nat.cast_pos.2 hden
  have habove : (2 * num : ℚ) ≤ (2 * n + 1) * den := by exact_mod_cast h.above
  have hbelow : (2 * n * den : ℚ) ≤ 2 * num + den := by exact_mod_cast h.below
  have hquotient : (num : ℚ) / den * den = num := div_mul_cancel₀ _ hpos.ne'
  rw [abs_le]
  constructor
  · refine le_of_mul_le_mul_right ?_ hpos
    linarith
  · refine le_of_mul_le_mul_right ?_ hpos
    linarith

end Quotients

namespace Binary64

/-! ## Nearest ranks -/

section Nearest

variable {q q' : ℚ} {rank rank' : ℕ}

theorem IsNearest.le_of_le (h : IsNearest q rank) (h' : IsNearest q' rank') (hle : q ≤ q') :
    rank ≤ rank' := by
  by_contra hlt
  have hvalue := strictMono_value (Nat.not_le.1 hlt)
  have hmid : value rank' + value rank ≤ 2 * q :=
    (abs_sub_le_iff_of_gt hvalue).1 (h.le rank')
  have hmid' : 2 * q' ≤ value rank' + value rank :=
    (abs_sub_le_iff_of_lt hvalue).1 (h'.le rank)
  obtain rfl : q = q' := by linarith
  exact hlt (h.unique h').le

/-- The value of a rank is nearest to the rank itself. -/
theorem isNearest_value (rank : ℕ) : IsNearest (value rank) rank := by
  constructor
  · intro other
    rw [sub_self, abs_zero]
    exact abs_nonneg _
  · intro other hsame
    rw [sub_self, abs_zero, eq_comm, abs_eq_zero, sub_eq_zero] at hsame
    exact .inl (strictMono_value.injective hsame.symm)

/-- Twice the number is not above the sum of a rank's value and the next one. -/
theorem IsNearest.le_midpoint (h : IsNearest q rank) :
    2 * q ≤ value rank + value (rank + 1) :=
  (abs_sub_le_iff_of_lt (strictMono_value rank.lt_succ_self)).1 (h.le (rank + 1))

theorem IsNearest.midpoint_le (h : IsNearest q (rank + 1)) :
    value rank + value (rank + 1) ≤ 2 * q :=
  (abs_sub_le_iff_of_gt (strictMono_value rank.lt_succ_self)).1 (h.le rank)

/-- The gap above a rank, as a number. -/
def gap (rank : ℕ) : ℚ := (2 ^ gapExponent rank : ℕ) / unitsPerOne

theorem value_succ (rank : ℕ) : value (rank + 1) = value rank + gap rank := by
  unfold value gap
  rw [units_succ, Nat.cast_add, add_div]

/-- Where a double has full precision, the gap above it is a small part of its value. -/
theorem gap_mul_binadeSize_le (hrank : binadeSize ≤ rank) : gap rank * binadeSize ≤ value rank := by
  have hone : (0 : ℚ) < unitsPerOne := Nat.cast_pos.2 unitsPerOne_pos
  obtain ⟨n, hsplit, hn, hgap⟩ := exists_eq_add rank
  have hlarge : binadeSize ≤ n := by
    rcases hgap with hzero | hlarge
    · rw [hzero, Nat.zero_mul] at hsplit
      omega
    · exact hlarge
  have hunits : units rank = n * 2 ^ gapExponent rank := by
    conv_lhs => rw [hsplit]
    exact units_add hn.le hgap
  have hle : 2 ^ gapExponent rank * binadeSize ≤ units rank := by
    rw [hunits, Nat.mul_comm]
    exact Nat.mul_le_mul_right _ hlarge
  unfold gap value
  rw [div_mul_eq_mul_div]
  exact div_le_div_of_nonneg_right (by exact_mod_cast hle) hone.le

/-- A number with full precision is off by at most half a unit of its last place. -/
theorem IsNearest.abs_sub_le (h : IsNearest q rank) (hq : value binadeSize ≤ q) :
    |value rank - q| * (2 * binadeSize) ≤ q := by
  have hsize : (0 : ℚ) < binadeSize := Nat.cast_pos.2 binadeSize_pos
  have hrank : binadeSize ≤ rank := h.le_rank hq
  rcases le_total (value rank) q with hbelow | habove
  · have hmid := h.le_midpoint
    have hgap := gap_mul_binadeSize_le hrank
    rw [value_succ] at hmid
    rw [abs_sub_comm, abs_of_nonneg (sub_nonneg.2 hbelow)]
    calc (q - value rank) * (2 * binadeSize)
        = (2 * q - 2 * value rank) * binadeSize := by ring
      _ ≤ gap rank * binadeSize := mul_le_mul_of_nonneg_right (by linarith only [hmid]) hsize.le
      _ ≤ q := hgap.trans hbelow
  · rw [abs_of_nonneg (sub_nonneg.2 habove)]
    rcases Nat.eq_or_lt_of_le hrank with hfirst | hlt
    · have hsame : value rank = q := le_antisymm (hfirst ▸ hq) habove
      have hpos : 0 ≤ value rank := div_nonneg (Nat.cast_nonneg _) (Nat.cast_nonneg _)
      rwa [← hsame, sub_self, zero_mul]
    · -- the number is above the rank below, and in the gap above that
      obtain ⟨lower, rfl⟩ : ∃ lower, rank = lower + 1 := ⟨rank - 1, by omega⟩
      have hmid := h.midpoint_le
      have hgap := gap_mul_binadeSize_le (Nat.le_of_lt_succ hlt)
      have hless : value lower ≤ value (lower + 1) := (strictMono_value lower.lt_succ_self).le
      have hlower : value lower ≤ q := by linarith only [hmid, hless]
      rw [value_succ] at hmid ⊢
      calc (value lower + gap lower - q) * (2 * binadeSize)
          = (2 * value lower + 2 * gap lower - 2 * q) * binadeSize := by ring
        _ ≤ gap lower * binadeSize := mul_le_mul_of_nonneg_right (by linarith only [hmid]) hsize.le
        _ ≤ q := hgap.trans hlower

/-! ## The first and the last doubles -/

theorem units_zero : units 0 = 0 := by
  unfold units
  rw [Nat.zero_sub, Nat.zero_mul]

theorem value_zero : value 0 = 0 := by
  unfold value
  rw [units_zero, Nat.cast_zero, zero_div]

theorem infinityRank_pos : 0 < infinityRank := Nat.mul_pos (by decide) binadeSize_pos

/-- The least number that is nearest to no finite double: halfway between the largest one and the
next power of two. -/
def overflow : ℚ := 2 ^ (1024 : ℕ) - 2 ^ (970 : ℕ)

theorem two_mul_overflow : 2 * overflow = value (infinityRank - 1) + value infinityRank := by
  have hone : (unitsPerOne : ℚ) ≠ 0 := (Nat.cast_pos.2 unitsPerOne_pos).ne'
  have hunits : units (infinityRank - 1) = (2 ^ 1024 - 2 ^ 971) * unitsPerOne ∧
      units infinityRank = 2 ^ 1024 * unitsPerOne := by
    decide +kernel
  obtain ⟨hlargest, hnext⟩ := hunits
  have hle : 2 ^ 971 ≤ 2 ^ 1024 := by gcongr <;> decide
  unfold value overflow
  rw [hlargest, hnext, Nat.cast_mul, Nat.cast_mul, mul_div_cancel_right₀ _ hone,
    mul_div_cancel_right₀ _ hone, Nat.cast_sub hle]
  have hdouble : (2 : ℚ) ^ 971 = 2 * 2 ^ 970 := pow_succ' 2 970
  rw [Nat.cast_pow, Nat.cast_pow, Nat.cast_ofNat, hdouble]
  generalize (2 : ℚ) ^ 1024 = next
  generalize (2 : ℚ) ^ 970 = half
  ring

/-- The tie between the largest finite double and the next power of two goes to the latter. -/
theorem IsNearest.lt_infinityRank_iff (h : IsNearest q rank) :
    rank < infinityRank ↔ q < overflow := by
  have hoverflow := two_mul_overflow
  have hless : infinityRank - 1 < infinityRank := Nat.sub_lt infinityRank_pos Nat.one_pos
  have hvalue := strictMono_value hless
  constructor
  · intro hrank
    by_contra hlarge
    have hlast : infinityRank - 1 ≤ rank := h.le_rank (by linarith)
    obtain rfl : rank = infinityRank - 1 := by omega
    have hmid := (abs_sub_le_iff_of_lt hvalue).1 (h.le infinityRank)
    have htie : |q - value (infinityRank - 1)| = |q - value infinityRank| := by
      rw [abs_of_nonneg (by linarith), abs_of_nonpos (by linarith)]
      linarith
    have hodd : ¬(infinityRank = infinityRank - 1 ∨ (infinityRank - 1) % 2 = 0) := by
      unfold infinityRank binadeSize
      omega
    exact hodd (h.even infinityRank htie)
  · intro hsmall
    by_contra hrank
    have hover := strictMono_value.monotone (Nat.not_lt.1 hrank)
    have hmid := (abs_sub_le_iff_of_gt (hvalue.trans_le hover)).1 (h.le (infinityRank - 1))
    linarith

end Nearest

end Binary64

end AlgoBox.Numeric
