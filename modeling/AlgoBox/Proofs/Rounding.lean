import AlgoBox.Numeric.Binary64
import Mathlib.Algebra.Order.Field.Rat
import Mathlib.Order.Monotone.Basic
import Mathlib.Tactic.FieldSimp
import Mathlib.Tactic.Linarith
import Mathlib.Tactic.Positivity
import Mathlib.Tactic.Ring

/-!
# Correct rounding

The doubles that are not negative are a ladder of ranks, and the gap from one rank to the next
is the power of two that the binade asks for (`units_succ`). A rank is nearest to a number if
no other one is nearer, and even if another one is as near (`IsNearest`). Every number has at
most one nearest rank (`IsNearest.unique`), and it is enough to look at the neighbours
(`IsNearest.of_midpoints`).

The ladder goes on past the largest finite double with the same precision. So a number whose
nearest rank is that of infinity or lies above it is just one that overflows.

Rounding a quotient gives its nearest rank (`isNearest_nearestRank`), and so does reading a
decimal, whether its power of ten is computed or not (`ofDecimal_eq_ofRank`).
-/

namespace AlgoBox.Numeric

-- powers of naturals are the core ones, as in the definition of a double
attribute [local instance (high)] instPowNat

/-! ## Rounded quotients -/

/-- A natural is at most half a unit away from a quotient, and even if it is half a unit away. -/
structure RoundsTo (num den n : ℕ) : Prop where
  above : 2 * num ≤ (2 * n + 1) * den
  even_above : 2 * num = (2 * n + 1) * den → n % 2 = 0
  below : 2 * n * den ≤ 2 * num + den
  even_below : 2 * n * den = 2 * num + den → n % 2 = 0

theorem roundsTo_roundHalfEven (num : ℕ) {den : ℕ} (hden : 0 < den) :
    RoundsTo num den (roundHalfEven num den) := by
  have hnum : den * (num / den) + num % den = num := Nat.div_add_mod num den
  have hrest : num % den < den := Nat.mod_lt _ hden
  unfold roundHalfEven
  generalize num / den = floor at *
  generalize num % den = rest at *
  have hfloor : (2 * floor + 1) * den = 2 * (den * floor) + den := by ring
  have hnext : (2 * (floor + 1) + 1) * den = 2 * (den * floor) + 3 * den := by ring
  have hfloor' : 2 * floor * den = 2 * (den * floor) := by ring
  have hnext' : 2 * (floor + 1) * den = 2 * (den * floor) + 2 * den := by ring
  dsimp only
  cases hcompare : compare (2 * rest) den with
  | lt =>
      have hlt := Nat.compare_eq_lt.1 hcompare
      constructor <;> dsimp only <;> omega
  | gt =>
      have hgt := Nat.compare_eq_gt.1 hcompare
      constructor <;> dsimp only <;> omega
  | eq =>
      have heq := Nat.compare_eq_eq.1 hcompare
      dsimp only
      split
      · constructor <;> omega
      · constructor <;> omega

namespace Binary64

/-! ## The ladder of ranks -/

theorem binadeSize_pos : 0 < binadeSize := Nat.two_pow_pos 52

/-- The value of a rank in its binade; the first rank of the next binade may be counted in. -/
theorem units_add {n gap : ℕ} (hn : n ≤ 2 * binadeSize) (hgap : gap = 0 ∨ binadeSize ≤ n) :
    units (n + gap * binadeSize) = n * 2 ^ gap := by
  have hpos := binadeSize_pos
  have hquotient : (n + gap * binadeSize) / binadeSize = n / binadeSize + gap :=
    Nat.add_mul_div_right n gap hpos
  unfold units gapExponent
  rw [hquotient]
  rcases Nat.lt_or_ge n binadeSize with hsmall | hlarge
  · have hzero : gap = 0 := by omega
    rw [hzero, Nat.div_eq_of_lt hsmall]
    simp
  rcases Nat.lt_or_ge n (2 * binadeSize) with hinside | hend
  · have hone : n / binadeSize = 1 := Nat.div_eq_of_lt_le (by omega) (by omega)
    rw [hone, Nat.add_sub_cancel_left, Nat.add_sub_cancel]
  · -- the first rank of the next binade is half as many gaps of twice the size
    have hsame : n = 2 * binadeSize := by omega
    have htwo : n / binadeSize = 2 := by rw [hsame, Nat.mul_div_cancel _ hpos]
    have hexponent : 2 + gap - 1 = gap + 1 := by omega
    have hdifference : n + gap * binadeSize - (gap + 1) * binadeSize = binadeSize := by
      rw [hsame, Nat.add_mul]
      omega
    rw [htwo, hexponent, hdifference, hsame, Nat.pow_succ]
    ring

/-- A rank is a number of gaps above the first rank of its binade. -/
theorem exists_eq_add (rank : ℕ) : ∃ n, rank = n + gapExponent rank * binadeSize ∧
    n < 2 * binadeSize ∧ (gapExponent rank = 0 ∨ binadeSize ≤ n) := by
  have hrank : binadeSize * (rank / binadeSize) + rank % binadeSize = rank :=
    Nat.div_add_mod rank binadeSize
  have hrest : rank % binadeSize < binadeSize := Nat.mod_lt _ binadeSize_pos
  unfold gapExponent
  cases hbinade : rank / binadeSize with
  | zero =>
      rw [hbinade] at hrank
      exact ⟨rank, by simp, by omega, .inl rfl⟩
  | succ gap =>
      rw [hbinade, Nat.mul_succ, Nat.mul_comm] at hrank
      refine ⟨binadeSize + rank % binadeSize, ?_, by omega, .inr (by omega)⟩
      rw [Nat.add_sub_cancel]
      omega

/-- The gap above a rank. -/
theorem units_succ (rank : ℕ) : units (rank + 1) = units rank + 2 ^ gapExponent rank := by
  obtain ⟨n, hrank, hn, hgap⟩ := exists_eq_add rank
  have hsucc : rank + 1 = n + 1 + gapExponent rank * binadeSize := by omega
  have hnext : units (rank + 1) = (n + 1) * 2 ^ gapExponent rank := by
    rw [hsucc]
    exact units_add (by omega) (by omega)
  have hthis : units rank = n * 2 ^ gapExponent rank := by
    rw [← units_add (by omega) hgap, ← hrank]
  rw [hnext, hthis, Nat.add_mul, Nat.one_mul]

theorem strictMono_units : StrictMono units :=
  strictMono_nat_of_lt_succ fun rank => by
    have hgap : 0 < 2 ^ gapExponent rank := Nat.two_pow_pos _
    rw [units_succ]
    omega

theorem unitsPerOne_pos : 0 < unitsPerOne := by
  unfold unitsPerOne
  exact Nat.two_pow_pos 1074

/-- The value of a rank. -/
def value (rank : ℕ) : ℚ := units rank / unitsPerOne

theorem strictMono_value : StrictMono value := by
  intro r s hrs
  have hunits : (units r : ℚ) < units s := Nat.cast_lt.2 (strictMono_units hrs)
  have hpos : (0 : ℚ) < unitsPerOne := Nat.cast_pos.2 unitsPerOne_pos
  exact div_lt_div_of_pos_right hunits hpos

/-! ## Nearest ranks -/

/-- No other rank is nearer to a number, and if one is as near, this one is even. -/
structure IsNearest (q : ℚ) (rank : ℕ) : Prop where
  le : ∀ other, |q - value rank| ≤ |q - value other|
  even : ∀ other, |q - value rank| = |q - value other| → other = rank ∨ rank % 2 = 0

section Nearest

variable {q a b : ℚ} {rank other : ℕ}

theorem abs_sub_le_iff_of_lt (h : a < b) : |q - a| ≤ |q - b| ↔ 2 * q ≤ a + b := by
  rcases abs_cases (q - a) with ⟨ha, _⟩ | ⟨ha, _⟩ <;>
    rcases abs_cases (q - b) with ⟨hb, _⟩ | ⟨hb, _⟩ <;> rw [ha, hb] <;>
      constructor <;> intro <;> linarith

theorem abs_sub_le_iff_of_gt (h : b < a) : |q - a| ≤ |q - b| ↔ b + a ≤ 2 * q := by
  rcases abs_cases (q - a) with ⟨ha, _⟩ | ⟨ha, _⟩ <;>
    rcases abs_cases (q - b) with ⟨hb, _⟩ | ⟨hb, _⟩ <;> rw [ha, hb] <;>
      constructor <;> intro <;> linarith

/-- A number between the midpoints of a rank and its neighbours is nearest to the rank. -/
theorem IsNearest.of_midpoints (habove : 2 * q ≤ value rank + value (rank + 1))
    (heven : 2 * q = value rank + value (rank + 1) → rank % 2 = 0)
    (hbelow : ∀ lower, lower + 1 = rank → value lower + value rank ≤ 2 * q)
    (heven' : ∀ lower, lower + 1 = rank → value lower + value rank = 2 * q → rank % 2 = 0) :
    IsNearest q rank := by
  have hhigher : ∀ {other}, rank < other → value (rank + 1) ≤ value other := fun h =>
    strictMono_value.monotone h
  have hlower : ∀ {other}, other < rank →
      ∃ lower, lower + 1 = rank ∧ value other ≤ value lower := by
    intro other h
    exact ⟨rank - 1, by omega, strictMono_value.monotone (by omega)⟩
  constructor
  · intro other
    rcases Nat.lt_trichotomy rank other with h | rfl | h
    · have hnext := hhigher h
      rw [abs_sub_le_iff_of_lt (strictMono_value h)]
      linarith
    · exact le_rfl
    · obtain ⟨lower, hrank, hnext⟩ := hlower h
      have hmid := hbelow lower hrank
      rw [abs_sub_le_iff_of_gt (strictMono_value h)]
      linarith
  · intro other hsame
    rcases Nat.lt_trichotomy rank other with h | rfl | h
    · have hnext := hhigher h
      have hmid := (abs_sub_le_iff_of_gt (strictMono_value h)).1 hsame.ge
      exact .inr (heven (by linarith))
    · exact .inl rfl
    · obtain ⟨lower, hrank, hnext⟩ := hlower h
      have hmid := (abs_sub_le_iff_of_lt (strictMono_value h)).1 hsame.ge
      have hother := hbelow lower hrank
      exact .inr (heven' lower hrank (by linarith))

/-- Two ranks that are equally near have a rank between them, unless one of them is odd. -/
theorem IsNearest.not_lt (h : IsNearest q rank) (h' : IsNearest q other) : ¬rank < other := by
  intro hlt
  have hvalue := strictMono_value hlt
  have hsame : |q - value rank| = |q - value other| := le_antisymm (h.le other) (h'.le rank)
  have hmid : value rank + value other ≤ 2 * q := (abs_sub_le_iff_of_gt hvalue).1 hsame.ge
  have hrank : rank % 2 = 0 := (h.even other hsame).resolve_left (by omega)
  have hother : other % 2 = 0 := (h'.even rank hsame.symm).resolve_left (by omega)
  have hbetween : value (rank + 1) < value other := strictMono_value (by omega)
  have hnext : 2 * q ≤ value rank + value (rank + 1) :=
    (abs_sub_le_iff_of_lt (strictMono_value rank.lt_succ_self)).1 (h.le (rank + 1))
  linarith

/-- There is only one nearest rank. -/
theorem IsNearest.unique (h : IsNearest q rank) (h' : IsNearest q other) : rank = other := by
  have hle := h.not_lt h'
  have hge := h'.not_lt h
  omega

end Nearest

/-! ## Rounding fractions -/

section Fraction

variable {num den rank : ℕ}

/-- Midpoints in units. -/
theorem IsNearest.of_fraction (hden : 0 < den)
    (habove : 2 * num ≤ (units rank + units (rank + 1)) * den)
    (heven : 2 * num = (units rank + units (rank + 1)) * den → rank % 2 = 0)
    (hbelow : ∀ lower, lower + 1 = rank → (units lower + units rank) * den ≤ 2 * num)
    (heven' : ∀ lower, lower + 1 = rank → (units lower + units rank) * den = 2 * num →
      rank % 2 = 0) :
    IsNearest (num / den / unitsPerOne) rank := by
  have hdenpos : (0 : ℚ) < den := Nat.cast_pos.2 hden
  have hone : (0 : ℚ) < unitsPerOne := Nat.cast_pos.2 unitsPerOne_pos
  have hnumber : (2 : ℚ) * (num / den / unitsPerOne) = (2 * num : ℕ) / (den * unitsPerOne) := by
    push_cast
    field_simp
  have hmiddle : ∀ r s, value r + value s =
      ((units r + units s) * den : ℕ) / (den * unitsPerOne) := by
    intro r s
    unfold value
    push_cast
    field_simp
  have hscale : (0 : ℚ) < den * unitsPerOne := mul_pos hdenpos hone
  refine IsNearest.of_midpoints ?_ ?_ ?_ ?_
  · rw [hnumber, hmiddle, div_le_div_iff_of_pos_right hscale]
    exact Nat.cast_le.2 habove
  · intro hsame
    rw [hnumber, hmiddle, div_left_inj' hscale.ne'] at hsame
    exact heven (Nat.cast_injective hsame)
  · intro lower hlower
    rw [hnumber, hmiddle, div_le_div_iff_of_pos_right hscale]
    exact Nat.cast_le.2 (hbelow lower hlower)
  · intro lower hlower hsame
    rw [hnumber, hmiddle, div_left_inj' hscale.ne'] at hsame
    exact heven' lower hlower (Nat.cast_injective hsame)

end Fraction

/-- A quotient lies in the binade whose precision it is rounded to. -/
theorem quotient_binade (num : ℕ) {den : ℕ} (hden : 0 < den) {gap : ℕ}
    (hgap : (num / den).log2 - 52 = gap) :
    num < 2 * binadeSize * (den * 2 ^ gap) ∧
      (gap = 0 ∨ binadeSize * (den * 2 ^ gap) ≤ num) := by
  have hpower : binadeSize * 2 ^ gap = 2 ^ (52 + gap) := (Nat.pow_add 2 52 gap).symm
  constructor
  · have hlog : num / den < 2 ^ (52 + gap + 1) := by
      refine Nat.lt_of_lt_of_le Nat.lt_log2_self (Nat.pow_le_pow_right (by decide) ?_)
      omega
    rw [Nat.div_lt_iff_lt_mul hden, Nat.pow_succ, ← hpower] at hlog
    calc num < binadeSize * 2 ^ gap * 2 * den := hlog
      _ = 2 * binadeSize * (den * 2 ^ gap) := by ring
  · rw [or_iff_not_imp_left]
    intro hpositive
    have hlog : (num / den).log2 = 52 + gap := by omega
    have hquotient : num / den ≠ 0 := by
      intro hzero
      rw [hzero, Nat.log2_zero] at hlog
      omega
    have hle : 2 ^ (52 + gap) ≤ num / den := hlog ▸ Nat.log2_self_le hquotient
    rw [Nat.le_div_iff_mul_le hden, ← hpower] at hle
    calc binadeSize * (den * 2 ^ gap) = binadeSize * 2 ^ gap * den := by ring
      _ ≤ num := hle

/-- The midpoint above a rounded quotient is half a unit above it, or above the binade. -/
theorem midpoint_above {num den n gap : ℕ} (hn : n ≤ 2 * binadeSize)
    (hgap : gap = 0 ∨ binadeSize ≤ n) (hhigh : num < 2 * binadeSize * (den * 2 ^ gap)) :
    2 * num < (units (n + gap * binadeSize) + units (n + gap * binadeSize + 1)) * den ∨
      (units (n + gap * binadeSize) + units (n + gap * binadeSize + 1)) * den =
        (2 * n + 1) * (den * 2 ^ gap) := by
  have hrank := units_add hn hgap
  rcases Nat.lt_or_ge n (2 * binadeSize) with hinside | hend
  · have hsucc : n + gap * binadeSize + 1 = n + 1 + gap * binadeSize := by omega
    have hnext : units (n + gap * binadeSize + 1) = (n + 1) * 2 ^ gap := by
      rw [hsucc]
      exact units_add (by omega) (by omega)
    rw [hrank, hnext]
    exact .inr (by ring)
  · have hsame : n = 2 * binadeSize := by omega
    have hgrows : n * 2 ^ gap ≤ units (n + gap * binadeSize + 1) :=
      hrank ▸ (strictMono_units (Nat.lt_succ_self _)).le
    refine .inl ?_
    calc 2 * num < 2 * (n * 2 ^ gap) * den := by rw [hsame]; linarith
      _ = (n * 2 ^ gap + n * 2 ^ gap) * den := by ring
      _ ≤ _ := by
        rw [hrank]
        exact Nat.mul_le_mul_right den (Nat.add_le_add_left hgrows _)

/-- The midpoint below a rounded quotient is half a unit below it, or below the binade. -/
theorem midpoint_below {num den n gap lower : ℕ} (hden : 0 < den) (hn : n ≤ 2 * binadeSize)
    (hgap : gap = 0 ∨ binadeSize ≤ n) (hlow : gap = 0 ∨ binadeSize * (den * 2 ^ gap) ≤ num)
    (hlower : lower + 1 = n + gap * binadeSize) :
    (units lower + units (n + gap * binadeSize)) * den < 2 * num ∨
      (units lower + units (n + gap * binadeSize)) * den + den * 2 ^ gap =
        2 * n * (den * 2 ^ gap) := by
  have hrank := units_add hn hgap
  by_cases hfirst : gap = 0 ∨ binadeSize < n
  · have hpos : 0 < n := by
      rcases hfirst with hzero | hlarge
      · rw [hzero, Nat.zero_mul] at hlower
        omega
      · omega
    obtain ⟨m, rfl⟩ : ∃ m, n = m + 1 := ⟨n - 1, by omega⟩
    obtain rfl : lower = m + gap * binadeSize := by omega
    have hprevious : units (m + gap * binadeSize) = m * 2 ^ gap :=
      units_add (by omega) (hfirst.imp_right Nat.le_of_lt_succ)
    rw [hrank, hprevious]
    exact .inr (by ring)
  · -- the first rank of a binade: nothing below it is as near as it is
    have hsame : n = binadeSize := by omega
    have hnum := hlow.resolve_left (by omega)
    have hless : units lower < n * 2 ^ gap := hrank ▸ strictMono_units (by omega)
    refine .inl ?_
    calc (units lower + units (n + gap * binadeSize)) * den
        < (n * 2 ^ gap + n * 2 ^ gap) * den := by
          rw [hrank]
          exact Nat.mul_lt_mul_of_pos_right (Nat.add_lt_add_right hless _) hden
      _ = 2 * (binadeSize * (den * 2 ^ gap)) := by rw [hsame]; ring
      _ ≤ 2 * num := Nat.mul_le_mul_left 2 hnum

/-- Rounding to the precision that a quotient asks for gives its nearest rank. -/
theorem isNearest_nearestRank (num : ℕ) {den : ℕ} (hden : 0 < den) :
    IsNearest (num / den / unitsPerOne) (nearestRank num den) := by
  have hpos := binadeSize_pos
  have hsize : binadeSize % 2 = 0 := rfl
  unfold nearestRank
  dsimp only
  generalize hexponent : (num / den).log2 - 52 = gap
  obtain ⟨hhigh, hlow⟩ := quotient_binade num hden hexponent
  have hstep : 0 < den * 2 ^ gap := Nat.mul_pos hden (Nat.two_pow_pos gap)
  have hround := roundsTo_roundHalfEven num hstep
  generalize roundHalfEven num (den * 2 ^ gap) = n at *
  have hn : n ≤ 2 * binadeSize := by
    have hle : 2 * n * (den * 2 ^ gap) < (4 * binadeSize + 1) * (den * 2 ^ gap) := by
      have hbelow := hround.below
      linarith
    have hlt := Nat.lt_of_mul_lt_mul_right hle
    omega
  have hgap : gap = 0 ∨ binadeSize ≤ n := by
    refine hlow.imp_right fun hlow => ?_
    have hle : 2 * binadeSize * (den * 2 ^ gap) ≤ (2 * n + 1) * (den * 2 ^ gap) := by
      have habove := hround.above
      linarith
    have hle' := Nat.le_of_mul_le_mul_right hle hstep
    omega
  have heven : (n + gap * binadeSize) % 2 = n % 2 := by
    rw [Nat.add_mod, Nat.mul_mod, hsize]
    simp
  have habove := midpoint_above hn hgap hhigh
  have hbelow := fun lower => @midpoint_below num den n gap lower hden hn hgap hlow
  obtain ⟨hround_above, heven_above, hround_below, heven_below⟩ := hround
  refine IsNearest.of_fraction hden ?_ ?_ ?_ ?_
  · rcases habove with hlt | heq
    · exact hlt.le
    · exact heq ▸ hround_above
  · intro hsame
    rcases habove with hlt | heq
    · omega
    · exact heven.trans (heven_above (hsame.trans heq))
  · intro lower hlower
    rcases hbelow lower hlower with hlt | heq
    · exact hlt.le
    · omega
  · intro lower hlower hsame
    rcases hbelow lower hlower with hlt | heq
    · omega
    · exact heven.trans (heven_below (by omega))

/-! ## Decimals -/

section Decimals

variable {q : ℚ} {rank bound digits : ℕ} {exponent : ℤ}

theorem lt_pow_decimalLength (digits : ℕ) : digits < 10 ^ decimalLength digits :=
  (Nat.length_toDigits_le_iff (by decide) Nat.length_toDigits_pos).1 le_rfl

theorem pow_decimalLength_le (h : digits ≠ 0) : 10 ^ (decimalLength digits - 1) ≤ digits := by
  rcases Nat.eq_zero_or_pos (decimalLength digits - 1) with hone | hmore
  · rw [hone, Nat.pow_zero]
    omega
  · have hlength : ¬decimalLength digits ≤ decimalLength digits - 1 := by omega
    exact Nat.not_lt.1 fun hlt =>
      hlength ((Nat.length_toDigits_le_iff (by decide) hmore).2 hlt)

theorem natCast_le_zpow {n m : ℕ} (h : n ≤ 10 ^ m) : (n : ℚ) ≤ 10 ^ (m : ℤ) := by
  rw [zpow_natCast]
  exact_mod_cast h

/-- A decimal lies between the powers of ten that its length gives. -/
theorem decimal_bounds (h : digits ≠ 0) (exponent : ℤ) :
    (10 : ℚ) ^ (decimalLength digits + exponent - 1) ≤ digits * 10 ^ exponent ∧
      digits * (10 : ℚ) ^ exponent < 10 ^ (decimalLength digits + exponent) := by
  have hten : (10 : ℚ) ≠ 0 := by norm_num
  have hpos : (0 : ℚ) < 10 ^ exponent := zpow_pos (by norm_num) exponent
  have hlength : 0 < decimalLength digits := Nat.length_toDigits_pos
  constructor
  · have hle : (10 : ℚ) ^ (decimalLength digits - 1) ≤ digits := by
      exact_mod_cast pow_decimalLength_le h
    have hsplit : (decimalLength digits + exponent - 1 : ℤ) =
        (decimalLength digits - 1 : ℕ) + exponent := by omega
    rw [hsplit, zpow_add₀ hten, zpow_natCast]
    exact mul_le_mul_of_nonneg_right hle hpos.le
  · have hlt : (digits : ℚ) < 10 ^ decimalLength digits := by
      exact_mod_cast lt_pow_decimalLength digits
    rw [zpow_add₀ hten, zpow_natCast]
    exact mul_lt_mul_of_pos_right hlt hpos

/-- A number below half the least positive double is nearest to zero. -/
theorem IsNearest.zero (h : q < 10 ^ (-331 : ℤ)) : IsNearest q 0 := by
  have hone : (0 : ℚ) < unitsPerOne := Nat.cast_pos.2 unitsPerOne_pos
  have hunits : units 0 = 0 ∧ units 1 = 1 := by decide +kernel
  have hsum : value 0 + value 1 = 1 / unitsPerOne := by
    unfold value
    rw [hunits.1, hunits.2, Nat.cast_zero, Nat.cast_one, zero_div, zero_add]
  have hpower : (0 : ℚ) < 10 ^ (331 : ℤ) := zpow_pos (by norm_num) 331
  have hhalf : ((2 * unitsPerOne : ℕ) : ℚ) ≤ 10 ^ (331 : ℤ) :=
    natCast_le_zpow (by decide +kernel)
  have hhalf' : (2 : ℚ) * 10 ^ (-331 : ℤ) ≤ 1 / unitsPerOne := by
    rw [le_div_iff₀ hone, zpow_neg, mul_right_comm, ← div_eq_mul_inv, div_le_one hpower]
    rwa [Nat.cast_mul] at hhalf
  have hlt : 2 * q < value 0 + value (0 + 1) := by
    rw [Nat.zero_add, hsum]
    linarith
  exact IsNearest.of_midpoints hlt.le (fun hsame => absurd hsame hlt.ne)
    (fun lower hlower => absurd hlower (Nat.succ_ne_zero lower))
    (fun lower hlower => absurd hlower (Nat.succ_ne_zero lower))

/-- The nearest rank is not below a rank whose value is not above the number. -/
theorem IsNearest.le_rank (h : IsNearest q rank) (hbound : value bound ≤ q) : bound ≤ rank := by
  by_contra hlt
  have hvalue := strictMono_value (Nat.not_le.1 hlt)
  have hmid := (abs_sub_le_iff_of_lt hvalue).1 (h.le bound)
  linarith

/-- A number of more than 310 digits overflows. -/
theorem IsNearest.infinityRank_le (h : IsNearest q rank) (hq : (10 : ℚ) ^ (310 : ℤ) ≤ q) :
    infinityRank ≤ rank := by
  have hone : (0 : ℚ) < unitsPerOne := Nat.cast_pos.2 unitsPerOne_pos
  have hunits : units infinityRank = 2 ^ 1024 * unitsPerOne := by decide +kernel
  have hlarge : ((2 ^ 1024 : ℕ) : ℚ) ≤ 10 ^ (310 : ℤ) := natCast_le_zpow (by decide +kernel)
  refine h.le_rank (le_trans ?_ hq)
  unfold value
  rw [hunits, Nat.cast_mul, mul_div_cancel_right₀ _ hone.ne']
  exact hlarge

/-- A decimal as a fraction in units. -/
theorem decimal_eq_fraction (digits : ℕ) (exponent : ℤ) :
    ((digits * 10 ^ exponent.toNat * unitsPerOne : ℕ) : ℚ) /
        (10 ^ (-exponent).toNat : ℕ) / unitsPerOne = digits * 10 ^ exponent := by
  have hone : (unitsPerOne : ℚ) ≠ 0 := (Nat.cast_pos.2 unitsPerOne_pos).ne'
  have hten : (10 : ℚ) ≠ 0 := by norm_num
  have hexponent : exponent = exponent.toNat - (-exponent).toNat := by omega
  have hpower : (10 : ℚ) ^ exponent = 10 ^ exponent.toNat / 10 ^ (-exponent).toNat := by
    conv_lhs => rw [hexponent]
    rw [zpow_sub₀ hten, zpow_natCast, zpow_natCast]
  rw [hpower]
  push_cast
  field_simp

/-- Every decimal has a nearest rank. -/
theorem exists_isNearest (digits : ℕ) (exponent : ℤ) :
    ∃ rank, IsNearest (digits * 10 ^ exponent) rank := by
  have hden : 0 < 10 ^ (-exponent).toNat := Nat.pow_pos (by decide)
  have hnearest := isNearest_nearestRank (digits * 10 ^ exponent.toNat * unitsPerOne) hden
  rw [decimal_eq_fraction] at hnearest
  exact ⟨_, hnearest⟩

/-- Reading a decimal gives the double of its nearest rank. -/
theorem ofDecimal_eq_ofRank (h : IsNearest (digits * 10 ^ exponent) rank) (negative : Bool) :
    ofDecimal negative digits exponent = ofRank negative rank := by
  unfold ofDecimal
  dsimp only
  split
  case isTrue hsmall =>
    have hless : (digits : ℚ) * 10 ^ exponent < 10 ^ (-331 : ℤ) := by
      by_cases hdigits : digits = 0
      · rw [hdigits, Nat.cast_zero, zero_mul]
        exact zpow_pos (by norm_num) (-331)
      · have hmagnitude := hsmall.resolve_left hdigits
        refine (decimal_bounds hdigits exponent).2.trans_le ?_
        exact zpow_le_zpow_right₀ (by norm_num) (by omega)
    rw [h.unique (IsNearest.zero hless)]
  case isFalse hlarge =>
    obtain ⟨hdigits, -⟩ := not_or.1 hlarge
    split
    case isTrue hhuge =>
      have hmore : (10 : ℚ) ^ (310 : ℤ) ≤ digits * 10 ^ exponent := by
        refine le_trans ?_ (decimal_bounds hdigits exponent).1
        exact zpow_le_zpow_right₀ (by norm_num) (by omega)
      have hover := h.infinityRank_le hmore
      unfold ofRank
      rw [dif_neg (by omega)]
    case isFalse =>
      have hden : 0 < 10 ^ (-exponent).toNat := Nat.pow_pos (by decide)
      have hnearest := isNearest_nearestRank (digits * 10 ^ exponent.toNat * unitsPerOne) hden
      rw [decimal_eq_fraction] at hnearest
      unfold nearest
      rw [h.unique hnearest]

end Decimals

end Binary64

end AlgoBox.Numeric
