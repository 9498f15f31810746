import AlgoBox.Proofs.Locating
import Mathlib.Data.Int.ConditionallyCompleteOrder
import Mathlib.Data.Prod.Lex
import Mathlib.Order.ConditionallyCompleteLattice.Basic

/-!
# Locations in order

The table of line starts and the scan of the source find the same location for every
offset of a source, its end included, and locations stand in the order of their offsets:
line first, then column. So line and column tell an offset from every other one
(`locators_agree_in_order`).

One more character moves the position behind a text on (`positionBehind_lt_concat`): to the
start of the next line behind a line feed, and to the next column otherwise.
-/

namespace AlgoBox.Source

/-- The line and column of a location, in the order of a text: line first, then column. -/
def Location.position (l : Location) : ℤ ×ₗ ℤ := toLex (l.line, l.column)

/-- The position behind a text. -/
def positionBehind (s : List Char) : ℤ ×ₗ ℤ :=
  toLex ((s.count '\n' : ℤ) + 1, (lastLineLength s : ℤ) + 1)

theorem lastLineLength_concat (s : List Char) {c : Char} (hc : c ≠ '\n') :
    lastLineLength (s ++ [c]) = lastLineLength s + 1 := by
  simp [lastLineLength, hc]

theorem positionBehind_lt_concat (s : List Char) (c : Char) :
    positionBehind s < positionBehind (s ++ [c]) := by
  unfold positionBehind
  rw [Prod.Lex.toLex_lt_toLex]
  by_cases hc : c = '\n'
  · -- the next line
    left
    rw [hc, List.count_append]
    exact Int.lt_add_one_iff.mpr (by simp)
  · -- the next column of the same line
    right
    rw [lastLineLength_concat s hc, List.count_append, List.count_singleton]
    refine ⟨by simp [hc], ?_⟩
    omega

theorem positionBehind_lt_append (s : List Char) {t : List Char} (ht : t ≠ []) :
    positionBehind s < positionBehind (s ++ t) := by
  induction t generalizing s with
  | nil => exact absurd rfl ht
  | cons c rest ih =>
      have hstep := positionBehind_lt_concat s c
      by_cases hrest : rest = []
      · subst hrest
        exact hstep
      · have hrun := ih (s ++ [c]) hrest
        rw [List.append_assoc, List.singleton_append] at hrun
        exact lt_trans hstep hrun

/-- Inside a source, positions grow with the offset. -/
theorem strictMonoOn_positionBehind (source : List Char) :
    StrictMonoOn (fun offset => positionBehind (source.take offset)) (Set.Iic source.length) := by
  intro o _ p hp hlt
  have hsplit : source.take p = source.take o ++ (source.take p).drop o := by
    conv_lhs => rw [← List.take_append_drop o (source.take p)]
    rw [List.take_take, Nat.min_eq_left (Nat.le_of_lt hlt)]
  have hmore : (source.take p).drop o ≠ [] := by
    intro hnil
    have hlength := congrArg List.length hnil
    rw [List.length_drop, List.length_take_of_le hp, List.length_nil] at hlength
    omega
  dsimp only
  rw [hsplit]
  exact positionBehind_lt_append _ hmore

theorem Location.position_ofOffset {source : List Char} {offset : ℕ}
    (h : offset ≤ source.length) (stop : Option ℤ) :
    (ofOffset source offset stop).position = positionBehind (source.take offset) := by
  have hclamp : clamp source offset = offset := by
    rw [clamp, Int.toNat_natCast, Nat.min_eq_left h]
  unfold position positionBehind ofOffset
  dsimp only
  rw [hclamp]

/-- For every offset of a source and every end, the table gives the location that scanning
gives. The positions of two offsets are equal only if the offsets are, and stand in their
order. -/
theorem locators_agree_in_order (source : List Char) :
    ∀ o ∈ Set.Icc (0 : ℤ) source.length, ∀ stop : Option ℤ,
      (LineTable.ofSource source).location o stop = Location.ofOffset source o stop ∧
      ∀ p ∈ Set.Icc (0 : ℤ) source.length, ∀ stop' : Option ℤ,
        ((Location.ofOffset source o stop).position =
          (Location.ofOffset source p stop').position ↔ o = p) ∧
        ((Location.ofOffset source o stop).position <
          (Location.ofOffset source p stop').position ↔ o < p) := by
  rintro o ⟨ho, hole⟩ stop
  lift o to ℕ using ho
  have hofits : o ≤ source.length := Int.ofNat_le.mp hole
  refine ⟨LineTable.location_eq hofits stop, ?_⟩
  rintro p ⟨hp, hple⟩ stop'
  lift p to ℕ using hp
  have hpfits : p ≤ source.length := Int.ofNat_le.mp hple
  have hmono := strictMonoOn_positionBehind source
  rw [Location.position_ofOffset hofits, Location.position_ofOffset hpfits, Int.ofNat_inj,
    Int.ofNat_lt]
  exact ⟨hmono.eq_iff_eq hofits hpfits, hmono.lt_iff_lt hofits hpfits⟩

/-- In front of the second of two line feeds and behind it, in a source of three lines. -/
theorem locators_agree_between_line_feeds :
    ((2 : ℤ) ∈ Set.Icc (0 : ℤ) ['a', '\n', '\n', 'b'].length ∧
      (3 : ℤ) ∈ Set.Icc (0 : ℤ) ['a', '\n', '\n', 'b'].length) ∧
    (LineTable.ofSource ['a', '\n', '\n', 'b']).location 2 (some 4) =
      Location.ofOffset ['a', '\n', '\n', 'b'] 2 (some 4) ∧
    ((Location.ofOffset ['a', '\n', '\n', 'b'] 2 (some 4)).position =
      (Location.ofOffset ['a', '\n', '\n', 'b'] 3 none).position ↔ (2 : ℤ) = 3) ∧
    ((Location.ofOffset ['a', '\n', '\n', 'b'] 2 (some 4)).position <
      (Location.ofOffset ['a', '\n', '\n', 'b'] 3 none).position ↔ (2 : ℤ) < 3) := by
  have htwo : (2 : ℤ) ∈ Set.Icc (0 : ℤ) ['a', '\n', '\n', 'b'].length := by decide
  have hthree : (3 : ℤ) ∈ Set.Icc (0 : ℤ) ['a', '\n', '\n', 'b'].length := by decide
  obtain ⟨hagree, horder⟩ := locators_agree_in_order _ 2 htwo (some 4)
  exact ⟨⟨htwo, hthree⟩, hagree, horder 3 hthree none⟩

end AlgoBox.Source
