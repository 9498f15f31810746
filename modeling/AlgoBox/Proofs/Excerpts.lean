import AlgoBox.Proofs.Positions

/-!
# Excerpts around any offset

An excerpt is cut from the source with the marker already in it. If the window has room for
the marker in front of its end, this comes to the same as putting the marker into a window of
the source itself (`excerpt_marks_window`): wherever the offset is, in front of the source or
behind it included, and however long the marker is.
-/

namespace AlgoBox.Source

/-- The nearest end of a source, if the offset lies outside. -/
theorem clamp_eq_max_min (source : List Char) (offset : ℤ) :
    (clamp source offset : ℤ) = max 0 (min offset source.length) := by
  unfold clamp
  omega

theorem clamp_le_length (source : List Char) (offset : ℤ) :
    clamp source offset ≤ source.length :=
  Nat.min_le_right _ _

/-- An offset outside the source has the excerpt of the nearest end. -/
theorem excerpt_clamp (source : List Char) (offset radius : ℤ) (marker : List Char) :
    excerpt source offset radius marker = excerpt source (clamp source offset) radius marker := by
  have hclamp := clamp_eq (clamp_le_length source offset)
  unfold excerpt
  dsimp only
  rw [hclamp]

theorem length_between_le (source : List Char) (start stop : ℕ) :
    (between source start stop).length ≤ stop - start := by
  unfold between
  rw [List.length_take]
  exact Nat.min_le_left _ _

/-- The excerpt is what stands up to `radius` characters in front of the offset, the whole
marker, and what stands behind the offset as far as the marker leaves room. Without the marker
it is one stretch of the source around the offset, and it is never longer than the window. -/
theorem excerpt_marks_window (source : List Char) (offset : ℤ) (marker : List Char) {radius : ℕ}
    (hmarker : marker.length ≤ radius) :
    ∃ o : ℕ, (o : ℤ) = max 0 (min offset source.length) ∧
      excerpt source offset radius marker =
        between source (o - radius) o ++ marker ++
          between source o (o + radius - marker.length) ∧
      between source (o - radius) o ++ between source o (o + radius - marker.length) =
        between source (o - radius) (o + radius - marker.length) ∧
      (excerpt source offset radius marker).length ≤ 2 * radius := by
  have hinside := clamp_le_length source offset
  have hwindow := excerpt_eq hinside hmarker
  rw [← excerpt_clamp, ← Nat.add_sub_assoc hmarker] at hwindow
  refine ⟨clamp source offset, clamp_eq_max_min source offset, hwindow, ?_, ?_⟩
  · exact between_between source (Nat.sub_le _ _) (by omega)
  · have hfront := length_between_le source (clamp source offset - radius) (clamp source offset)
    have hback := length_between_le source (clamp source offset)
      (clamp source offset + radius - marker.length)
    rw [hwindow, List.length_append, List.length_append]
    omega

/-- A marker of two characters, in a window that begins in front of the source. -/
theorem excerpt_marks_window_at_start :
    ['>', '>'].length ≤ 3 ∧
    ∃ o : ℕ, (o : ℤ) = max 0 (min 1 (['a', 'b', 'c'].length : ℤ)) ∧
      excerpt ['a', 'b', 'c'] 1 (3 : ℕ) ['>', '>'] =
        between ['a', 'b', 'c'] (o - 3) o ++ ['>', '>'] ++
          between ['a', 'b', 'c'] o (o + 3 - ['>', '>'].length) ∧
      between ['a', 'b', 'c'] (o - 3) o ++
          between ['a', 'b', 'c'] o (o + 3 - ['>', '>'].length) =
        between ['a', 'b', 'c'] (o - 3) (o + 3 - ['>', '>'].length) ∧
      (excerpt ['a', 'b', 'c'] 1 (3 : ℕ) ['>', '>']).length ≤ 2 * 3 := by
  have hmarker : ['>', '>'].length ≤ 3 := by decide
  exact ⟨hmarker, excerpt_marks_window ['a', 'b', 'c'] 1 ['>', '>'] hmarker⟩

end AlgoBox.Source
