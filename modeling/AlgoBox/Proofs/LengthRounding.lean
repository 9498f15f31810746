import AlgoBox.Options.Em
import AlgoBox.Proofs.RoundingOrder

/-!
# How lengths are rounded

A length is rounded twice before it is written: to four places and back to a double, and then to
six digits.

Going to four places and back a second time changes nothing
(`rankOfTenThousandths_tenThousandths`). Where doubles are closer together than four places, the
places are found again. Where they are not, the double is found again, since the places next to it
are nearer to it than half a gap.

Six digits keep the order (`written_mono`). They are found again from the double nearest to what
they say (`written_eq_of_near`), also where this double lies below a power of ten that the six
digits had reached.
-/

namespace AlgoBox.Em

open Numeric Binary64

-- powers of naturals are the core ones, as in the definition of a double
attribute [local instance (high)] instPowNat

variable {rank rank' count : ℕ}

/-! ## Four places -/

theorem roundsTo_tenThousandths (rank : ℕ) :
    RoundsTo (units rank * 10000) unitsPerOne (tenThousandths rank) :=
  roundsTo_roundHalfEven _ unitsPerOne_pos

/-- Four places, counted in units. -/
theorem units_tenThousandths (count : ℕ) :
    ((count * unitsPerOne : ℕ) : ℚ) / (10000 : ℕ) / unitsPerOne = count / 10000 := by
  have hone : (unitsPerOne : ℚ) ≠ 0 := (Nat.cast_pos.2 unitsPerOne_pos).ne'
  push_cast
  field_simp

theorem isNearest_rankOfTenThousandths (count : ℕ) :
    IsNearest (count / 10000) (rankOfTenThousandths count) := by
  have hnearest := isNearest_nearestRank (count * unitsPerOne) (by decide : 0 < 10000)
  rwa [units_tenThousandths] at hnearest

/-- Four places are off by at most half a place. -/
theorem abs_tenThousandths_sub_le (rank : ℕ) :
    |(tenThousandths rank : ℚ) / 10000 - value rank| ≤ 1 / 20000 := by
  have hround := (roundsTo_tenThousandths rank).abs_sub_le unitsPerOne_pos
  have hvalue : ((units rank * 10000 : ℕ) : ℚ) / unitsPerOne = value rank * 10000 := by
    unfold value
    push_cast
    ring
  rw [hvalue, abs_le] at hround
  rw [abs_le]
  constructor <;> linarith only [hround.1, hround.2]

theorem tenThousandths_mono (h : rank ≤ rank') : tenThousandths rank ≤ tenThousandths rank' :=
  (roundsTo_tenThousandths rank).le_of_le unitsPerOne_pos (roundsTo_tenThousandths rank')
    (Nat.mul_le_mul_right _ (strictMono_units.monotone h))

theorem rankOfTenThousandths_mono {count' : ℕ} (h : count ≤ count') :
    rankOfTenThousandths count ≤ rankOfTenThousandths count' :=
  (isNearest_rankOfTenThousandths count).le_of_le (isNearest_rankOfTenThousandths count')
    (div_le_div_of_nonneg_right (Nat.cast_le.2 h) (by norm_num))

/-- Midpoints between doubles, in units. -/
theorem midpoint_units (rank rank' count : ℕ) :
    2 * ((count : ℚ) / 10000) ≤ value rank + value rank' ↔
      2 * (count * unitsPerOne) ≤ (units rank + units rank') * 10000 := by
  have hone : (0 : ℚ) < unitsPerOne := Nat.cast_pos.2 unitsPerOne_pos
  unfold value
  generalize unitsPerOne = one at *
  rw [← add_div, ← mul_div_assoc, div_le_div_iff₀ (by norm_num) hone]
  norm_cast
  rw [Nat.mul_assoc]

theorem units_midpoint (rank rank' count : ℕ) :
    value rank + value rank' ≤ 2 * ((count : ℚ) / 10000) ↔
      (units rank + units rank') * 10000 ≤ 2 * (count * unitsPerOne) := by
  have hone : (0 : ℚ) < unitsPerOne := Nat.cast_pos.2 unitsPerOne_pos
  unfold value
  generalize unitsPerOne = one at *
  rw [← add_div, ← mul_div_assoc, div_le_div_iff₀ hone (by norm_num)]
  norm_cast
  rw [Nat.mul_assoc]

theorem gapExponent_mono (h : rank ≤ rank') : gapExponent rank ≤ gapExponent rank' :=
  Nat.sub_le_sub_right (Nat.div_le_div_right h) 1

/-- Where doubles are closer together than four places, the places are found again. -/
theorem tenThousandths_of_isNearest (hgap : gapExponent rank ≤ 1060)
    (h : IsNearest (count / 10000) rank) : tenThousandths rank = count := by
  have hsmall : ∀ exponent ≤ 1060, 2 ^ exponent * 10000 < unitsPerOne := by
    intro exponent hexponent
    calc 2 ^ exponent * 10000 ≤ 2 ^ 1060 * 10000 :=
          Nat.mul_le_mul_right _ (Nat.pow_le_pow_right (by decide) hexponent)
      _ < unitsPerOne := by decide +kernel
  have habove := (midpoint_units _ _ _).1 h.le_midpoint
  have hnext := hsmall _ hgap
  rw [units_succ] at habove
  refine (roundsTo_tenThousandths rank).eq_of_lt ?_ ?_
  · rcases Nat.eq_zero_or_pos rank with rfl | hpos
    · rw [units_zero]
      exact Nat.mul_pos (Nat.succ_pos _) unitsPerOne_pos
    · obtain ⟨lower, rfl⟩ : ∃ lower, rank = lower + 1 := ⟨rank - 1, by omega⟩
      have hbelow := (units_midpoint _ _ _).1 h.midpoint_le
      have hlower := hsmall _ ((gapExponent_mono lower.le_succ).trans hgap)
      rw [units_succ] at hbelow ⊢
      linarith
  · linarith

/-- Where doubles are not closer together than four places, the double is found again. -/
theorem isNearest_tenThousandths (hgap : 1061 ≤ gapExponent rank) :
    IsNearest (tenThousandths rank / 10000) rank := by
  have hone : (unitsPerOne : ℚ) ≠ 0 := (Nat.cast_pos.2 unitsPerOne_pos).ne'
  have hround := roundsTo_tenThousandths rank
  by_cases hfirst : rank = 1062 * binadeSize
  · -- the gap below this rank is still smaller, but its value is a whole number
    have hunits : units rank * 10000 = 2 ^ 39 * 10000 * unitsPerOne := by
      rw [hfirst]
      decide +kernel
    have hcount : tenThousandths rank = 2 ^ 39 * 10000 := by
      rw [hunits] at hround
      exact hround.unique unitsPerOne_pos (.of_mul _ unitsPerOne_pos)
    have hvalue : (tenThousandths rank : ℚ) / 10000 = value rank := by
      unfold value
      rw [hcount, div_eq_div_iff (by norm_num) hone]
      exact_mod_cast hunits.symm
    rw [hvalue]
    exact isNearest_value rank
  have hlarge : ∀ exponent, 1061 ≤ exponent → unitsPerOne < 2 ^ exponent * 10000 := by
    intro exponent hexponent
    calc unitsPerOne < 2 ^ 1061 * 10000 := by decide +kernel
      _ ≤ 2 ^ exponent * 10000 :=
          Nat.mul_le_mul_right _ (Nat.pow_le_pow_right (by decide) hexponent)
  have hlower : ∀ lower, lower + 1 = rank → 1061 ≤ gapExponent lower := by
    rintro lower rfl
    unfold gapExponent binadeSize at *
    omega
  have hnext := hlarge _ hgap
  have habove := hround.above
  have hbelow := hround.below
  have hstrict : ∀ lower, lower + 1 = rank →
      (units lower + units rank) * 10000 < 2 * (tenThousandths rank * unitsPerOne) := by
    rintro lower rfl
    have hprevious := hlarge _ (hlower lower rfl)
    rw [units_succ] at habove ⊢
    linarith
  have hnearest := @IsNearest.of_fraction (tenThousandths rank * unitsPerOne) 10000 rank (by decide)
    (by rw [units_succ]; linarith) (fun hsame => by rw [units_succ] at hsame; linarith)
    (fun lower h => (hstrict lower h).le) (fun lower h hsame => absurd hsame (hstrict lower h).ne)
  rwa [units_tenThousandths] at hnearest

/-- The double nearest to four places is nearest to its own four places. -/
theorem rankOfTenThousandths_tenThousandths (h : IsNearest (count / 10000) rank) :
    rankOfTenThousandths (tenThousandths rank) = rank := by
  refine (isNearest_rankOfTenThousandths _).unique ?_
  rcases Nat.lt_or_ge 1060 (gapExponent rank) with hlarge | hsmall
  · exact isNearest_tenThousandths hlarge
  · rwa [tenThousandths_of_isNearest hsmall h]

/-! ## Six digits -/

/-- The power of ten of the last of six digits. -/
def lastPlace (rank : ℕ) : ℤ := (decimalLength (exactDigits rank) - 6 : ℕ) - 1074

/-- The six digits as a number. -/
def leading (rank : ℕ) : ℕ :=
  roundHalfEven (exactDigits rank) (10 ^ (decimalLength (exactDigits rank) - 6))

/-- What six digits say. -/
def written (rank : ℕ) : ℚ := leading rank * 10 ^ lastPlace rank

theorem sixDigits_eq (rank : ℕ) : sixDigits rank = .ofScaled (leading rank) (lastPlace rank) := rfl

/-- The exact value has six digits at least. -/
def HasSixDigits (rank : ℕ) : Prop := 6 ≤ decimalLength (exactDigits rank)

theorem value_eq_exactDigits (rank : ℕ) :
    value rank = exactDigits rank * 10 ^ (-1074 : ℤ) := by
  -- under a name the exponent is not computed with
  obtain ⟨places, hplaces⟩ : ∃ places : ℕ, places = 1074 := ⟨_, rfl⟩
  have hunits : unitsPerOne = 2 ^ places := by rw [hplaces]; rfl
  have hdigits : exactDigits rank = units rank * 5 ^ places := by rw [hplaces]; rfl
  have hexponent : (-1074 : ℤ) = -(places : ℤ) := by rw [hplaces]; rfl
  have hten : (10 : ℚ) ^ places = 2 ^ places * 5 ^ places := by
    rw [← mul_pow]
    norm_num
  have htwo : (2 : ℚ) ^ places ≠ 0 := pow_ne_zero _ (by norm_num)
  have hfive : (5 : ℚ) ^ places ≠ 0 := pow_ne_zero _ (by norm_num)
  unfold value
  rw [hunits, hdigits, hexponent, zpow_neg, zpow_natCast, hten]
  push_cast
  field_simp

theorem exactDigits_mono (h : rank ≤ rank') : exactDigits rank ≤ exactDigits rank' :=
  Nat.mul_le_mul_right _ (strictMono_units.monotone h)

theorem decimalLength_mono {n m : ℕ} (h : n ≤ m) : decimalLength n ≤ decimalLength m :=
  (Nat.length_toDigits_le_iff (by decide) Nat.length_toDigits_pos).2
    (h.trans_lt (lt_pow_decimalLength m))

/-- A length of five places at least has six digits. -/
theorem hasSixDigits_of_le (h : (10 : ℚ) ^ (-5 : ℤ) ≤ value rank) : HasSixDigits rank := by
  have hten : (10 : ℚ) ≠ 0 := by norm_num
  have hexact : 10 ^ 6 ≤ exactDigits rank := by
    rw [value_eq_exactDigits] at h
    have hscaled := mul_le_mul_of_nonneg_right h (zpow_pos (by norm_num : (0 : ℚ) < 10) 1074).le
    rw [← zpow_add₀ hten, mul_assoc, ← zpow_add₀ hten] at hscaled
    have hsix : (10 : ℚ) ^ (6 : ℤ) ≤ 10 ^ (-5 + 1074 : ℤ) :=
      zpow_le_zpow_right₀ (by norm_num) (by decide)
    have hle := hsix.trans hscaled
    rw [show (-1074 + 1074 : ℤ) = 0 from rfl, zpow_zero, mul_one] at hle
    exact_mod_cast hle
  have hlength : decimalLength (10 ^ 6) = 7 := by decide
  have hmono := decimalLength_mono hexact
  unfold HasSixDigits
  omega

theorem exactDigits_bounds (h : HasSixDigits rank) :
    10 ^ 5 * 10 ^ (decimalLength (exactDigits rank) - 6) ≤ exactDigits rank ∧
      exactDigits rank < 10 ^ 6 * 10 ^ (decimalLength (exactDigits rank) - 6) := by
  unfold HasSixDigits at h
  have hne : exactDigits rank ≠ 0 := by
    intro hzero
    have hlength : decimalLength 0 = 1 := by decide
    rw [hzero] at h
    omega
  have hlow := pow_decimalLength_le hne
  have hhigh := lt_pow_decimalLength (exactDigits rank)
  rw [← Nat.pow_add, ← Nat.pow_add]
  have hfive :
      5 + (decimalLength (exactDigits rank) - 6) = decimalLength (exactDigits rank) - 1 := by
    omega
  have hsix : 6 + (decimalLength (exactDigits rank) - 6) = decimalLength (exactDigits rank) := by
    omega
  rw [hfive, hsix]
  exact ⟨hlow, hhigh⟩

theorem leading_bounds (h : HasSixDigits rank) :
    10 ^ 5 ≤ leading rank ∧ leading rank ≤ 10 ^ 6 := by
  obtain ⟨hlow, hhigh⟩ := exactDigits_bounds h
  have hpos : 0 < 10 ^ (decimalLength (exactDigits rank) - 6) := Nat.pow_pos (by decide)
  have hround := roundsTo_roundHalfEven (exactDigits rank) hpos
  exact ⟨(RoundsTo.of_mul _ hpos).le_of_le hpos hround hlow,
    hround.le_of_le hpos (.of_mul _ hpos) hhigh.le⟩

/-- The exact value in units of the last of six digits. -/
theorem value_eq_mul_lastPlace (rank : ℕ) : value rank =
    exactDigits rank / (10 ^ (decimalLength (exactDigits rank) - 6) : ℕ) * 10 ^ lastPlace rank := by
  have hten : (10 : ℚ) ≠ 0 := by norm_num
  have hscale : ((10 : ℚ) ^ (decimalLength (exactDigits rank) - 6)) ≠ 0 := pow_ne_zero _ hten
  rw [value_eq_exactDigits, lastPlace, sub_eq_add_neg, zpow_add₀ hten, zpow_natCast, Nat.cast_pow,
    Nat.cast_ofNat, div_mul_eq_mul_div, ← mul_assoc, mul_div_right_comm,
    mul_div_cancel_right₀ _ hscale]

theorem value_bounds (h : HasSixDigits rank) :
    10 ^ 5 * (10 : ℚ) ^ lastPlace rank ≤ value rank ∧
      value rank < 10 ^ 6 * 10 ^ lastPlace rank := by
  obtain ⟨hlow, hhigh⟩ := exactDigits_bounds h
  have hplace : (0 : ℚ) < 10 ^ lastPlace rank := zpow_pos (by norm_num) _
  have hscale : (0 : ℚ) < (10 ^ (decimalLength (exactDigits rank) - 6) : ℕ) :=
    Nat.cast_pos.2 (Nat.pow_pos (by decide))
  rw [value_eq_mul_lastPlace]
  constructor
  · refine mul_le_mul_of_nonneg_right ?_ hplace.le
    rw [le_div_iff₀ hscale]
    exact_mod_cast hlow
  · refine mul_lt_mul_of_pos_right ?_ hplace
    rw [div_lt_iff₀ hscale]
    exact_mod_cast hhigh

/-- Six digits are off by at most half a unit of the last one. -/
theorem abs_written_sub_le (rank : ℕ) : |written rank - value rank| ≤ 10 ^ lastPlace rank / 2 := by
  have hplace : (0 : ℚ) < 10 ^ lastPlace rank := zpow_pos (by norm_num) _
  have hround := (roundsTo_roundHalfEven (exactDigits rank)
    (Nat.pow_pos (by decide) : 0 < 10 ^ (decimalLength (exactDigits rank) - 6))).abs_sub_le
      (Nat.pow_pos (by decide))
  have hscaled := mul_le_mul_of_nonneg_right hround hplace.le
  rw [value_eq_mul_lastPlace, written, ← sub_mul, abs_mul, abs_of_pos hplace, leading]
  linarith only [hscaled]

/-- Six digits keep the order. -/
theorem written_mono (h : HasSixDigits rank) (h' : HasSixDigits rank') (hle : rank ≤ rank') :
    written rank ≤ written rank' := by
  have hlength := decimalLength_mono (exactDigits_mono hle)
  unfold written
  rcases Nat.eq_or_lt_of_le hlength with hsame | hless
  · have hplace : lastPlace rank = lastPlace rank' := by
      unfold lastPlace
      rw [hsame]
    have hleading : leading rank ≤ leading rank' := by
      have hpos : 0 < 10 ^ (decimalLength (exactDigits rank') - 6) := Nat.pow_pos (by decide)
      unfold leading
      rw [hsame]
      exact (roundsTo_roundHalfEven _ hpos).le_of_le hpos (roundsTo_roundHalfEven _ hpos)
        (exactDigits_mono hle)
    rw [hplace]
    exact mul_le_mul_of_nonneg_right (Nat.cast_le.2 hleading) (zpow_pos (by norm_num) _).le
  · -- a power of ten lies between the two
    have hten : (10 : ℚ) ≠ 0 := by norm_num
    have hplaces : 6 + lastPlace rank ≤ 5 + lastPlace rank' := by
      unfold HasSixDigits at h h'
      unfold lastPlace
      omega
    calc (leading rank : ℚ) * 10 ^ lastPlace rank
        ≤ (10 ^ 6 : ℕ) * 10 ^ lastPlace rank :=
          mul_le_mul_of_nonneg_right (Nat.cast_le.2 (leading_bounds h).2)
            (zpow_pos (by norm_num) _).le
      _ = 10 ^ (6 + lastPlace rank) := by
          rw [zpow_add₀ hten]
          norm_num
      _ ≤ 10 ^ (5 + lastPlace rank') := zpow_le_zpow_right₀ (by norm_num) hplaces
      _ = (10 ^ 5 : ℕ) * 10 ^ lastPlace rank' := by
          rw [zpow_add₀ hten]
          norm_num
      _ ≤ leading rank' * 10 ^ lastPlace rank' :=
          mul_le_mul_of_nonneg_right (Nat.cast_le.2 (leading_bounds h').1)
            (zpow_pos (by norm_num) _).le

/-! ## Finding six digits again -/

/-- A multiple of a unit that a number is rounded to, and one that it is nearer to than half a
unit, are the same. -/
theorem eq_of_near {n m : ℕ} {q unit : ℚ} (hunit : 0 < unit) (h : |n * unit - q| ≤ unit / 2)
    (h' : |q - m * unit| < unit / 2) : n = m := by
  obtain ⟨hlow, hhigh⟩ := abs_le.1 h
  obtain ⟨hlow', hhigh'⟩ := abs_lt.1 h'
  have hlt : (n : ℚ) < m + 1 := lt_of_mul_lt_mul_right (by linarith) hunit.le
  have hgt : (m : ℚ) < n + 1 := lt_of_mul_lt_mul_right (by linarith) hunit.le
  have hle : n < m + 1 := by exact_mod_cast hlt
  have hge : m < n + 1 := by exact_mod_cast hgt
  omega

/-- A double that is near enough to what six digits say has its last place where they have it, or
next to it. -/
theorem lastPlace_of_near {place : ℤ} (h : HasSixDigits rank) (hlow : 10 ^ 5 ≤ count)
    (hhigh : count ≤ 10 ^ 6) (hnear : |value rank - count * 10 ^ place| < 10 ^ place / 20) :
    lastPlace rank = place ∨ lastPlace rank = place - 1 ∨ lastPlace rank = place + 1 := by
  have hten : (10 : ℚ) ≠ 0 := by norm_num
  have hunit : (0 : ℚ) < 10 ^ place := zpow_pos (by norm_num) _
  have hlast : (0 : ℚ) < 10 ^ lastPlace rank := zpow_pos (by norm_num) _
  obtain ⟨hvalue, hvalue'⟩ := value_bounds h
  obtain ⟨hbelow, habove⟩ := abs_lt.1 hnear
  have hlow' : (10 ^ 5 : ℚ) * 10 ^ place ≤ count * 10 ^ place :=
    mul_le_mul_of_nonneg_right (by exact_mod_cast hlow) hunit.le
  have hhigh' : (count : ℚ) * 10 ^ place ≤ 10 ^ 6 * 10 ^ place :=
    mul_le_mul_of_nonneg_right (by exact_mod_cast hhigh) hunit.le
  -- two places are a factor of a hundred, and the bounds leave one of little more than ten
  have hscale : ∀ {k l : ℤ}, k + 2 ≤ l → (10 : ℚ) ^ k * 100 ≤ 10 ^ l := by
    intro k l hle
    have hup : (10 : ℚ) ^ (k + 2) ≤ 10 ^ l := zpow_le_zpow_right₀ (by norm_num) hle
    rw [zpow_add₀ hten] at hup
    norm_num at hup
    exact hup
  have hless : place - 1 ≤ lastPlace rank := by
    by_contra hfar
    have hfactor : (10 : ℚ) ^ lastPlace rank * 100 ≤ 10 ^ place := hscale (by omega)
    linarith
  have hmore : lastPlace rank ≤ place + 1 := by
    by_contra hfar
    have hfactor : (10 : ℚ) ^ place * 100 ≤ 10 ^ lastPlace rank := hscale (by omega)
    linarith
  omega

/-- Six digits are found again from a double that is near enough to what they say. -/
theorem written_eq_of_near {place : ℤ} (h : HasSixDigits rank) (hlow : 10 ^ 5 ≤ count)
    (hhigh : count ≤ 10 ^ 6) (hnear : |value rank - count * 10 ^ place| < 10 ^ place / 20) :
    written rank = count * 10 ^ place := by
  have hten : (10 : ℚ) ≠ 0 := by norm_num
  have hunit : (0 : ℚ) < 10 ^ place := zpow_pos (by norm_num) _
  have hlast : (0 : ℚ) < 10 ^ lastPlace rank := zpow_pos (by norm_num) _
  have hround := abs_written_sub_le rank
  obtain hsame | hless | hmore := lastPlace_of_near h hlow hhigh hnear
  · have hleading : leading rank = count := by
      unfold written at hround
      rw [hsame] at hround
      exact eq_of_near hunit hround (hnear.trans (by linarith))
    rw [written, hsame, hleading]
  · -- the double is below the power of ten that the digits have reached
    have hscale : (10 : ℚ) ^ place = 10 * 10 ^ lastPlace rank := by
      rw [hless, zpow_sub_one₀ hten]
      ring
    have hleading : leading rank = count * 10 := by
      refine eq_of_near hlast hround ?_
      rw [hscale] at hnear
      push_cast
      rw [mul_assoc]
      exact hnear.trans_le (by linarith)
    rw [written, hscale, hleading]
    push_cast
    ring
  · -- the digits have reached a power of ten, and the double is not below it
    have hscale : (10 : ℚ) ^ lastPlace rank = 10 * 10 ^ place := by
      rw [hmore, zpow_add_one₀ hten, mul_comm]
    have hcount : count = 10 ^ 6 := by
      refine le_antisymm hhigh (Nat.lt_succ_iff.1 ?_)
      have hlt : (10 ^ 6 : ℚ) < count + 1 := by
        refine lt_of_mul_lt_mul_right ?_ hunit.le
        obtain ⟨hvalue, -⟩ := value_bounds h
        rw [hscale] at hvalue
        linarith [(abs_lt.1 hnear).2]
      exact_mod_cast hlt
    have hleading : leading rank = 10 ^ 5 := by
      refine eq_of_near hlast hround ?_
      have hsame : ((10 ^ 5 : ℕ) : ℚ) * (10 * 10 ^ place) = (10 ^ 6 : ℕ) * 10 ^ place := by
        push_cast
        ring
      rw [hscale, hsame, ← hcount]
      exact hnear.trans (by linarith)
    rw [written, hscale, hleading, hcount]
    push_cast
    ring

/-- A number of at most six digits is filled up with zeros. -/
theorem exists_zeros (hcount : count ≠ 0) (hsix : count ≤ 10 ^ 6) :
    ∃ zeros, 10 ^ 5 ≤ count * 10 ^ zeros ∧ count * 10 ^ zeros ≤ 10 ^ 6 := by
  have hlow := pow_decimalLength_le hcount
  have hhigh := lt_pow_decimalLength count
  have hpos : 0 < decimalLength count := Nat.length_toDigits_pos
  rcases Nat.lt_or_ge 6 (decimalLength count) with hlong | hshort
  · refine ⟨0, ?_, by simpa using hsix⟩
    rw [Nat.pow_zero, Nat.mul_one]
    exact (Nat.pow_le_pow_right (by decide) (by omega)).trans hlow
  · refine ⟨6 - decimalLength count, ?_, ?_⟩
    · calc 10 ^ 5 = 10 ^ (decimalLength count - 1) * 10 ^ (6 - decimalLength count) := by
            rw [← Nat.pow_add]
            congr 1
            omega
        _ ≤ _ := Nat.mul_le_mul_right _ hlow
    · calc count * 10 ^ (6 - decimalLength count)
          ≤ 10 ^ decimalLength count * 10 ^ (6 - decimalLength count) :=
            Nat.mul_le_mul_right _ hhigh.le
        _ = 10 ^ 6 := by
            rw [← Nat.pow_add]
            congr 1
            omega

end AlgoBox.Em
