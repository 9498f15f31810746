import AlgoBox.Proofs.Scanning
import Mathlib.Data.List.Nodup

/-!
# The order of the recognizers

The first two characters of a text decide which kind of symbol can begin there
(`leadingKind`), so no two recognizers of the table match at the same place. The first
match is then the only one, whatever the order in which the recognizers are tried: a
source is cut into the same symbols, and the cut stops at the same place
(`recognizers_exclusive`).
-/

namespace AlgoBox

open AlgoBox.Symbol

namespace Symbol

/-- The only kind of symbol that can begin like this text. -/
def leadingKind : List Char → Kind
  | '\\' :: c :: _ => if isReserved c then .special else .word
  | '{' :: _ => .openBrace
  | '}' :: _ => .closeBrace
  | '$' :: _ => .math
  | _ => .ordinary

/-! ## What the recognizers match -/

namespace Recognizer

variable {c : Char} {s : List Char} {n : Nat}

theorem exists_of_specialLength? (h : specialLength? s = some n) :
    ∃ c rest, s = '\\' :: c :: rest ∧ isReserved c = true ∧ n = 2 := by
  simp only [specialLength?] at h
  split at h
  · rename_i c rest
    split at h
    · rename_i hc
      cases h
      exact ⟨c, rest, rfl, hc, rfl⟩
    · cases h
  · cases h

theorem exists_of_wordLength? (h : wordLength? s = some n) :
    ∃ c rest, s = '\\' :: c :: rest ∧ isLetter c = true ∧
      n = 2 + (rest.takeWhile isLetter).length := by
  simp only [wordLength?] at h
  split at h
  · rename_i c rest
    split at h
    · rename_i hc
      cases h
      exact ⟨c, rest, rfl, hc, rfl⟩
    · cases h
  · cases h

theorem exists_of_charLength? (h : charLength? c s = some n) : ∃ rest, s = c :: rest ∧ n = 1 := by
  simp only [charLength?] at h
  split at h
  · rename_i d rest
    split at h
    · rename_i hd
      subst hd
      cases h
      exact ⟨rest, rfl, rfl⟩
    · cases h
  · cases h

theorem exists_of_ordinaryLength? (h : ordinaryLength? s = some n) :
    ∃ c rest, s = c :: rest ∧ ¬isReserved c = true ∧
      n = 1 + (rest.takeWhile fun c => !isReserved c).length := by
  simp only [ordinaryLength?] at h
  split at h
  · rename_i c rest
    split at h
    · cases h
    · rename_i hc
      cases h
      exact ⟨c, rest, rfl, hc, rfl⟩
  · cases h

theorem exists_of_mathLength? (h : mathLength? s = some n) :
    ∃ body rest, s = '$' :: (body ++ '$' :: rest) ∧ n = body.length + 2 := by
  simp only [mathLength?] at h
  split at h
  · obtain ⟨k, hk, rfl⟩ := Option.map_eq_some_iff.1 h
    obtain ⟨body, rest, rfl, rfl, -⟩ := exists_of_throughDollar? hk
    exact ⟨body, rest, rfl, rfl⟩
  · cases h

end Recognizer

section Matches

open Recognizer

variable {r r' : Recognizer} {s : List Char} {n n' : Nat}

/-- A recognizer that matches is one for the kind that can begin here. -/
theorem kind_eq_leadingKind (hr : r ∈ Recognizer.table) (h : r.length? s = some n) :
    r.kind = leadingKind s := by
  simp only [Recognizer.table, List.mem_cons, List.not_mem_nil, or_false] at hr
  rcases hr with rfl | rfl | rfl | rfl | rfl | rfl
  · obtain ⟨c, rest, rfl, hc, -⟩ := exists_of_specialLength? h
    simp [leadingKind, hc]
  · obtain ⟨c, rest, rfl, hc, -⟩ := exists_of_wordLength? h
    simp [leadingKind, not_isReserved_of_isLetter hc]
  · obtain ⟨rest, rfl, -⟩ := exists_of_charLength? h
    rfl
  · obtain ⟨rest, rfl, -⟩ := exists_of_charLength? h
    rfl
  · obtain ⟨c, rest, rfl, hc, -⟩ := exists_of_ordinaryLength? h
    have hne : ∀ d, isReserved d = true → c ≠ d := by
      rintro d hd rfl
      exact hc hd
    have hbackslash := hne '\\' (by decide)
    have hopen := hne '{' (by decide)
    have hclose := hne '}' (by decide)
    have hdollar := hne '$' (by decide)
    simp [leadingKind, hbackslash, hopen, hclose, hdollar]
  · obtain ⟨body, rest, rfl, -⟩ := exists_of_mathLength? h
    rfl

/-- A match ends in the text. -/
theorem length_le_of_match (hr : r ∈ Recognizer.table) (h : r.length? s = some n) :
    n ≤ s.length := by
  simp only [Recognizer.table, List.mem_cons, List.not_mem_nil, or_false] at hr
  rcases hr with rfl | rfl | rfl | rfl | rfl | rfl
  · obtain ⟨c, rest, rfl, -, rfl⟩ := exists_of_specialLength? h
    simp only [List.length_cons]
    omega
  · obtain ⟨c, rest, rfl, -, rfl⟩ := exists_of_wordLength? h
    have hletters : (rest.takeWhile isLetter).length ≤ rest.length :=
      (List.takeWhile_sublist _).length_le
    simp only [List.length_cons]
    omega
  · obtain ⟨rest, rfl, rfl⟩ := exists_of_charLength? h
    exact Nat.succ_pos rest.length
  · obtain ⟨rest, rfl, rfl⟩ := exists_of_charLength? h
    exact Nat.succ_pos rest.length
  · obtain ⟨c, rest, rfl, -, rfl⟩ := exists_of_ordinaryLength? h
    have hplain : (rest.takeWhile fun c => !isReserved c).length ≤ rest.length :=
      (List.takeWhile_sublist _).length_le
    simp only [List.length_cons]
    omega
  · obtain ⟨body, rest, rfl, rfl⟩ := exists_of_mathLength? h
    simp only [List.length_cons, List.length_append]
    omega

theorem nodup_kinds : (Recognizer.table.map Recognizer.kind).Nodup := by decide

/-- At one place only one recognizer matches. -/
theorem eq_of_match (hr : r ∈ Recognizer.table) (hr' : r' ∈ Recognizer.table)
    (h : r.length? s = some n) (h' : r'.length? s = some n') : r = r' := by
  have hkind : r.kind = r'.kind :=
    (kind_eq_leadingKind hr h).trans (kind_eq_leadingKind hr' h').symm
  exact List.inj_on_of_nodup_map nodup_kinds hr hr' hkind

end Matches

theorem countP_le_one {β : Type} {p : β → Bool} {l : List β}
    (h : l.Pairwise fun a b => ¬(p a = true ∧ p b = true)) : l.countP p ≤ 1 := by
  induction h with
  | nil => exact Nat.zero_le 1
  | @cons a l hfirst _ ih =>
      rw [List.countP_cons]
      by_cases ha : p a = true
      · have hnone : l.countP p = 0 := List.countP_eq_zero.2 fun b hb hp => hfirst b hb ⟨ha, hp⟩
        rw [hnone, if_pos ha]
      · rw [if_neg ha]
        exact ih

/-- No two rows of the table match the same text. -/
theorem countP_match_le_one (s : List Char) :
    Recognizer.table.countP (fun r => (r.length? s).isSome) ≤ 1 := by
  refine countP_le_one ?_
  have hnodup : Recognizer.table.Nodup := List.Nodup.of_map _ nodup_kinds
  refine hnodup.imp_of_mem fun {r r'} hr hr' hne => ?_
  rintro ⟨hmatch, hmatch'⟩
  obtain ⟨n, hn⟩ := Option.isSome_iff_exists.1 hmatch
  obtain ⟨n', hn'⟩ := Option.isSome_iff_exists.1 hmatch'
  exact hne (eq_of_match hr hr' hn hn')

/-! ## Any order -/

variable {recognizers : List Recognizer}

/-- Among recognizers of the table the first match is the match of any of them. -/
theorem firstMatch?_eq_some_iff_exists (h : ∀ r ∈ recognizers, r ∈ Recognizer.table)
    {s : List Char} {m : Match} :
    firstMatch? recognizers s = some m ↔ ∃ r ∈ recognizers, r.match? s = some m := by
  constructor
  · exact List.exists_of_findSome?_eq_some
  · rintro ⟨r, hr, hm⟩
    cases hfirst : firstMatch? recognizers s with
    | none =>
        rw [List.findSome?_eq_none_iff.1 hfirst r hr] at hm
        cases hm
    | some m' =>
        obtain ⟨r', hr', hm'⟩ := List.exists_of_findSome?_eq_some hfirst
        obtain ⟨n, hn, -⟩ := Option.map_eq_some_iff.1 hm
        obtain ⟨n', hn', -⟩ := Option.map_eq_some_iff.1 hm'
        obtain rfl := eq_of_match (h r hr) (h r' hr') hn hn'
        rw [← hm', hm]

theorem firstMatch?_eq_of_perm (h : recognizers.Perm Recognizer.table) (s : List Char) :
    firstMatch? recognizers s = firstMatch? Recognizer.table s := by
  have hmem : ∀ r ∈ recognizers, r ∈ Recognizer.table := fun r => h.mem_iff.1
  ext m
  rw [firstMatch?_eq_some_iff_exists hmem, firstMatch?_eq_some_iff_exists fun r => id]
  simp only [h.mem_iff]

/-- A cut depends on the recognizers only through their first matches. -/
theorem scanFrom_congr {recognizers' : List Recognizer}
    (h : ∀ s, firstMatch? recognizers s = firstMatch? recognizers' s) (offset : Nat)
    (s : List Char) : scanFrom recognizers offset s = scanFrom recognizers' offset s := by
  fun_induction scanFrom recognizers offset s with
  | case1 offset s rest start hrest =>
      rw [scanFrom, dif_pos hrest]
  | case2 offset s rest start hrest hm =>
      rw [h] at hm
      rw [scanFrom, dif_neg hrest]
      split
      · rfl
      · rename_i m hm'
        rw [hm] at hm'
        cases hm'
  | case3 offset s rest start hrest m hm ih =>
      rw [h] at hm
      conv_rhs => rw [scanFrom, dif_neg hrest]
      split
      · rename_i hm'
        rw [hm] at hm'
        cases hm'
      · rename_i m' hm'
        obtain rfl : m = m' := Option.some.inj (hm.symm.trans hm')
        rw [ih]

end Symbol

/-- At every position of a source at most one recognizer of the table matches, and its
match is not empty and ends in the source. So the recognizers may be tried in any order:
the source is cut into the same symbols, up to the same place. -/
theorem recognizers_exclusive (source : List Char) :
    (∀ position, Recognizer.table.countP
      (fun r => (r.length? (source.drop position)).isSome) ≤ 1) ∧
    (∀ r ∈ Recognizer.table, ∀ position length,
      r.length? (source.drop position) = some length →
        position < position + length ∧ position + length ≤ source.length) ∧
    ∀ recognizers : List Recognizer, recognizers.Perm Recognizer.table →
      scanFrom recognizers 0 source = scan source := by
  refine ⟨fun position => countP_match_le_one _, ?_, ?_⟩
  · intro r hr position length hlength
    have hpos := r.length_pos hlength
    have hle := length_le_of_match hr hlength
    rw [List.length_drop] at hle
    omega
  · intro recognizers hperm
    exact scanFrom_congr (firstMatch?_eq_of_perm hperm) 0 source

/-- With the table the other way round: the dollar behind the backslash begins no formula,
the one behind the word does, and the cut stops at the ampersand. -/
theorem recognizers_exclusive_reversed :
    let source := "\\$\\bf $x$&".toList
    Recognizer.mathLength? (source.drop 6) = some 3 ∧ 6 + 3 ≤ source.length ∧
      Recognizer.table.reverse.Perm Recognizer.table ∧
      scanFrom Recognizer.table.reverse 0 source = ⟨[⟨.special, some "\\$", 0, 2⟩,
        ⟨.word, some "bf", 2, 5⟩, ⟨.math, some "x", 6, 9⟩], .unrecognized 9⟩ := by
  intro source
  have hmath : Recognizer.mathLength? (source.drop 6) = some 3 := by decide +kernel
  have hperm : Recognizer.table.reverse.Perm Recognizer.table := List.reverse_perm _
  obtain ⟨-, hlength, hscan⟩ := recognizers_exclusive source
  refine ⟨hmath, ?_, hperm, ?_⟩
  · have hmem : (⟨.math, Recognizer.mathLength?, 1, 1, Recognizer.mathLength?_pos⟩ : Recognizer) ∈
        Recognizer.table := by
      simp [Recognizer.table]
    exact (hlength _ hmem 6 3 hmath).2
  · rw [hscan _ hperm]
    decide +kernel

end AlgoBox
