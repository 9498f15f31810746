import AlgoBox.Source.Location
import Mathlib.Data.List.Induction

/-!
# Locating through the table of line starts

Inside a source the table of line starts gives the location that scanning the source
gives (`LineTable.location_eq`). Both look only at what stands before the offset:
the line starts of the text before it come first in the table, and the search counts
just these.
-/

namespace AlgoBox.Source

namespace LineTable

variable {offset : Nat} {before after : List Char}

theorem startsFrom_append (offset : Nat) (s t : List Char) :
    startsFrom offset (s ++ t) = startsFrom offset s ++ startsFrom (offset + s.length) t := by
  induction s generalizing offset with
  | nil => rfl
  | cons c s ih =>
      have hsum : offset + 1 + s.length = offset + (s.length + 1) := by omega
      simp only [List.cons_append, startsFrom, ih, List.length_cons, hsum]
      split <;> rfl

theorem length_startsFrom (offset : Nat) (s : List Char) :
    (startsFrom offset s).length = s.count '\n' := by
  induction s generalizing offset with
  | nil => rfl
  | cons c s ih =>
      rw [startsFrom]
      by_cases hc : c = '\n'
      · rw [if_pos hc, List.length_cons, ih, hc, List.count_cons_self]
      · rw [if_neg hc, ih, List.count_cons_of_ne hc]

/-- The starts of a text lie behind its first character and not behind its end. -/
theorem mem_startsFrom (offset : Nat) (s : List Char) :
    ∀ k ∈ startsFrom offset s, offset < k ∧ k ≤ offset + s.length := by
  induction s generalizing offset with
  | nil => exact nofun
  | cons c s ih =>
      intro k hk
      have hlater : ∀ k ∈ startsFrom (offset + 1) s, offset < k ∧ k ≤ offset + (s.length + 1) := by
        intro k hk
        have := ih (offset + 1) k hk
        omega
      rw [startsFrom] at hk
      split at hk
      · rcases List.mem_cons.1 hk with rfl | hk
        · rw [List.length_cons]
          omega
        · exact hlater k hk
      · exact hlater k hk

/-- The last line of a text starts where the characters behind its last line feed do. -/
theorem getLast_starts (offset : Nat) (s : List Char) :
    (offset :: startsFrom offset s).getLast (List.cons_ne_nil _ _) + lastLineLength s =
      offset + s.length := by
  induction s using List.reverseRecOn with
  | nil => rfl
  | append_singleton s c ih =>
      have hone : startsFrom (offset + s.length) [c] =
          if c = '\n' then [offset + s.length + 1] else [] := rfl
      simp only [startsFrom_append, hone, lastLineLength, List.reverse_append,
        List.reverse_singleton, List.singleton_append, List.length_append,
        List.length_singleton, ne_eq, decide_not] at ih ⊢
      by_cases hc : c = '\n'
      · -- the line feed is the last character, so nothing stands in the last line
        simp only [hc, if_true, decide_true, Bool.not_true, Bool.false_eq_true, not_false_eq_true,
          List.takeWhile_cons_of_neg, List.length_nil, ← List.cons_append, List.getLast_concat]
        omega
      · simp only [hc, if_false, List.append_nil, decide_false, Bool.not_false,
          List.takeWhile_cons_of_pos, List.length_cons]
        omega

/-- The search finds the boundary between the starts that are at most the offset and
those that are larger. -/
theorem countUpTo_eq {table : LineTable} {offset : Int} {n low high : Nat}
    (high_le : high ≤ table.starts.size) (hlow : low ≤ n) (hhigh : n ≤ high)
    (hbefore : ∀ i (h : i < table.starts.size), i < n → table.starts[i] ≤ offset)
    (hbehind : ∀ i (h : i < table.starts.size), n ≤ i → offset < table.starts[i]) :
    table.countUpTo offset low high high_le = n := by
  induction hsize : high - low using Nat.strongRecOn generalizing low high with
  | ind size ih =>
      rw [countUpTo]
      by_cases h : low < high
      · have hmiddle : (low + high) / 2 < high := by omega
        rw [dif_pos h]
        by_cases hlt : offset < table.starts[(low + high) / 2]
        · -- the middle lies behind the boundary
          have hn : n ≤ (low + high) / 2 := by
            by_contra hn
            have := hbefore ((low + high) / 2) (by omega) (by omega)
            omega
          simp only [hlt, if_true]
          exact ih _ (by omega) (by omega) hlow hn rfl
        · have hn : (low + high) / 2 + 1 ≤ n := by
            by_contra hn
            exact hlt (hbehind ((low + high) / 2) (by omega) (by omega))
          simp only [hlt, if_false]
          exact ih _ (by omega) high_le hn hhigh rfl
      · rw [dif_neg h]
        omega

/-- The starts of a text that is cut in two: those up to the cut and those behind it. -/
theorem starts_append (before after : List Char) :
    (ofSource (before ++ after)).starts =
      ((0 :: startsFrom 0 before) ++ startsFrom before.length after).toArray := by
  simp [ofSource, startsFrom_append]

/-- The table counts as many line starts up to an offset as the search for line feeds
before it. -/
theorem countUpTo_starts (before after : List Char) :
    (ofSource (before ++ after)).countUpTo before.length 0 _ (Nat.le_refl _) =
      before.count '\n' + 1 := by
  have hsize : (0 :: startsFrom 0 before).length = before.count '\n' + 1 := by
    rw [List.length_cons, length_startsFrom]
  refine countUpTo_eq _ (Nat.zero_le _) ?_ ?_ ?_
  · rw [starts_append, List.size_toArray, List.length_append, hsize]
    omega
  · intro i h hi
    simp only [starts_append, List.getElem_toArray]
    rw [List.getElem_append_left (hsize ▸ hi)]
    rcases List.mem_cons.1 (List.getElem_mem (hsize ▸ hi)) with hzero | hmem
    · omega
    · have := mem_startsFrom 0 before _ hmem
      omega
  · intro i h hi
    simp only [starts_append, List.getElem_toArray]
    rw [List.getElem_append_right (hsize ▸ hi)]
    refine Int.ofNat_lt.2 (mem_startsFrom before.length after _ ?_).1
    exact List.getElem_mem _

/-- The last start up to an offset is that of its line. -/
theorem getD_starts (before after : List Char) :
    (ofSource (before ++ after)).starts.getD (before.count '\n') 0 + lastLineLength before =
      before.length := by
  have hlast := getLast_starts 0 before
  have hsize := length_startsFrom 0 before
  rw [List.getLast_eq_getElem] at hlast
  simp only [List.length_cons, hsize, Nat.add_sub_cancel, Nat.zero_add] at hlast
  rw [starts_append, Array.getD_eq_getD_getElem?, List.getElem?_toArray,
    List.getElem?_append_left (by simp [hsize]), List.getElem?_eq_getElem (by simp [hsize])]
  exact hlast

end LineTable

/-- Inside a source the table gives the location that scanning the source gives. -/
theorem LineTable.location_eq {source : List Char} {offset : Nat} (h : offset ≤ source.length)
    (stop : Option Int) :
    (LineTable.ofSource source).location offset stop = Location.ofOffset source offset stop := by
  obtain ⟨before, after, rfl, rfl⟩ : ∃ before after, source = before ++ after ∧
      offset = before.length :=
    ⟨source.take offset, source.drop offset, (List.take_append_drop _ _).symm,
      (List.length_take_of_le h).symm⟩
  have hclamp : clamp (before ++ after) before.length = before.length := by simp [clamp]
  have hstart := LineTable.getD_starts before after
  unfold LineTable.location Location.ofOffset
  dsimp only
  rw [LineTable.countUpTo_starts, hclamp, List.take_left' rfl, if_neg (Nat.succ_ne_zero _),
    Nat.add_sub_cancel]
  simp only [Location.mk.injEq, and_true]
  omega

/-- What stands behind an offset does not matter to its location. -/
theorem Location.ofOffset_append {before : List Char} {offset : Nat} (h : offset ≤ before.length)
    (after : List Char) (stop : Option Int) :
    ofOffset (before ++ after) offset stop = ofOffset before offset stop := by
  have hclamp : clamp (before ++ after) offset = clamp before offset := by
    simp only [clamp, List.length_append, Int.toNat_natCast]
    omega
  have htake : (before ++ after).take (clamp before offset) = before.take (clamp before offset) :=
    List.take_append_of_le_length (Nat.min_le_right _ _)
  unfold ofOffset
  dsimp only
  rw [hclamp, htake]

end AlgoBox.Source
