import AlgoBox.Numeric.Literal
import Mathlib.Data.List.Induction
import Mathlib.Data.Nat.Digits.Defs
import Mathlib.Data.Rat.Defs

/-!
# The grammar of number literals

A number literal is a sign, digits with at most one point, and an exponent
(`Numeral.Spells`). The grammar says so without a reader: digits are taken as they stand, in
any script and with their underscores, and an underscore stands between two digits of a run.

The reader first turns digits of all scripts into ASCII ones and takes the underscores out,
and then cuts the rest into its parts. It gives a finite number just for the literals of the
grammar (`read_spelled_iff`); the words for infinity and for what is no number spell none.
-/

namespace AlgoBox.Numeric

open AlgoBox.Text

/-- The number that decimal digits write, the first one being the highest. -/
def natOf (digits : List ℕ) : ℕ := Nat.ofDigits 10 digits.reverse

/-- What a number literal says: whether there is a minus in front, the digits in front of
the point and behind it, and the power of ten. -/
structure Numeral where
  negative : Bool
  whole : List ℕ
  fraction : List ℕ
  exponent : ℤ

namespace Numeral

/-- The digits as one number. -/
def digits (n : Numeral) : ℕ := natOf (n.whole ++ n.fraction)

/-- The power of ten of the last digit. -/
def scale (n : Numeral) : ℤ := n.exponent - n.fraction.length

/-- The number without its sign. -/
def magnitude (n : Numeral) : ℚ := n.digits * 10 ^ n.scale

/-- Decimal digits of any script, with single underscores between some of them. -/
inductive Run : List ℕ → List Char → Prop
  | last {c : Char} {d : ℕ} : decimalDigit? c = some d → Run [d] [c]
  | next {c : Char} {d : ℕ} {ds : List ℕ} {text : List Char} :
      decimalDigit? c = some d → Run ds text → Run (d :: ds) (c :: text)
  | separated {c : Char} {d : ℕ} {ds : List ℕ} {text : List Char} :
      decimalDigit? c = some d → Run ds text → Run (d :: ds) (c :: '_' :: text)

/-- Digits, or nothing. -/
def OptionalRun (ds : List ℕ) (text : List Char) : Prop := Run ds text ∨ ds = [] ∧ text = []

/-- A sign, or nothing. -/
inductive Sign : Bool → List Char → Prop
  | none : Sign false []
  | plus : Sign false ['+']
  | minus : Sign true ['-']

/-- Digits in front of a point and behind it. There need not be a point, and the digits on one
side of it may be missing. -/
inductive Mantissa : List ℕ → List ℕ → List Char → Prop
  | plain {whole : List ℕ} {text : List Char} : Run whole text → Mantissa whole [] text
  | pointed {whole fraction : List ℕ} {before behind : List Char} : OptionalRun whole before →
      OptionalRun fraction behind → whole ++ fraction ≠ [] →
      Mantissa whole fraction (before ++ '.' :: behind)

/-- A power of ten, or nothing. -/
inductive Exponent : ℤ → List Char → Prop
  | none : Exponent 0 []
  | marked {mark : Char} {negative : Bool} {sign : List Char} {ds : List ℕ} {text : List Char} :
      mark = 'e' ∨ mark = 'E' → Sign negative sign → Run ds text →
      Exponent (if negative then -(natOf ds : ℤ) else natOf ds) (mark :: (sign ++ text))

/-- A text is a number literal that says this. -/
def Spells (n : Numeral) (text : List Char) : Prop :=
  ∃ sign mantissa power, text = sign ++ (mantissa ++ power) ∧ Sign n.negative sign ∧
    Mantissa n.whole n.fraction mantissa ∧ Exponent n.exponent power

end Numeral

namespace Literal

open Numeral

/-! ## Digits -/

theorem lt_ten_of_decimalDigit? {c : Char} {d : ℕ} (h : decimalDigit? c = some d) : d < 10 := by
  unfold decimalDigit? at h
  obtain ⟨start, hfind, rfl⟩ := Option.map_eq_some_iff.1 h
  have hrange := List.find?_some hfind
  simp only [Bool.and_eq_true, decide_eq_true_eq] at hrange
  omega

/-- ASCII digits are decimal digits. -/
theorem decimalDigit?_of_isDigit {c : Char} (h : c.isDigit = true) :
    decimalDigit? c = some (c.toNat - 48) := by
  have hrange : 48 ≤ c.toNat ∧ c.toNat < 58 := by
    simp only [Char.isDigit, Bool.and_eq_true, decide_eq_true_eq, UInt32.le_iff_toNat_le] at h
    exact ⟨h.1, Nat.lt_succ_of_le h.2⟩
  unfold decimalDigit? digitZeros
  rw [List.find?_cons_of_pos (by simpa using hrange)]
  rfl

theorem toAsciiDigit_of_some {c : Char} {d : ℕ} (h : decimalDigit? c = some d) :
    toAsciiDigit c = Nat.digitChar d := by
  unfold toAsciiDigit
  rw [h]

theorem toAsciiDigit_of_none {c : Char} (h : decimalDigit? c = none) : toAsciiDigit c = c := by
  unfold toAsciiDigit
  rw [h]

theorem isDigit_toAsciiDigit {c : Char} {d : ℕ} (h : decimalDigit? c = some d) :
    (toAsciiDigit c).isDigit = true := by
  rw [toAsciiDigit_of_some h, Nat.isDigit_digitChar]
  exact decide_eq_true (lt_ten_of_decimalDigit? h)

/-- Digits of one script and without underscores. -/
def plainDigits (ds : List ℕ) : List Char := ds.map Nat.digitChar

theorem plainDigits_append (l m : List ℕ) :
    plainDigits (l ++ m) = plainDigits l ++ plainDigits m :=
  List.map_append

theorem length_plainDigits (ds : List ℕ) : (plainDigits ds).length = ds.length :=
  List.length_map ..

theorem plainDigits_ne_nil {ds : List ℕ} (h : ds ≠ []) : plainDigits ds ≠ [] :=
  fun hnil => h (List.map_eq_nil_iff.1 hnil)

theorem natOfDigits_plainDigits {ds : List ℕ} (h : ∀ d ∈ ds, d < 10) :
    natOfDigits (plainDigits ds) = natOf ds := by
  induction ds using List.reverseRecOn with
  | nil => rfl
  | append_singleton ds d ih =>
      have hlast : d < 10 := h d (by simp)
      have hrest := ih fun e he => h e (by simp [he])
      unfold natOfDigits plainDigits natOf at *
      rw [List.map_append, List.foldl_append, hrest, List.reverse_append]
      show 10 * _ + ((Nat.digitChar d).toNat - 48) = Nat.ofDigits 10 (d :: ds.reverse)
      rw [Nat.toNat_digitChar_sub_48_of_lt_ten hlast, Nat.ofDigits_cons]
      exact Nat.add_comm _ _

/-! ## Taking the underscores out -/

/-- A text with ASCII digits and without underscores. -/
def strip? (previous : Char) (text : List Char) : Option (List Char) :=
  dropSeparators? previous (text.map toAsciiDigit)

section Strip

variable {previous c : Char} {text rest : List Char} {ds : List ℕ}

theorem toAsciiDigit_eq_underscore (h : toAsciiDigit c = '_') : c = '_' := by
  cases hdigit : decimalDigit? c with
  | none => exact toAsciiDigit_of_none hdigit ▸ h
  | some d =>
      have hascii := isDigit_toAsciiDigit hdigit
      rw [h] at hascii
      cases hascii

theorem toAsciiDigit_underscore : toAsciiDigit '_' = '_' := by decide

theorem strip?_nil : strip? previous [] = some [] := rfl

theorem strip?_cons (h : c ≠ '_') :
    strip? previous (c :: text) =
      (strip? (toAsciiDigit c) text).map (toAsciiDigit c :: ·) := by
  have hascii : toAsciiDigit c ≠ '_' := fun hsame => h (toAsciiDigit_eq_underscore hsame)
  unfold strip?
  rw [List.map_cons, dropSeparators?]
  · intro _ _ hsame
    exact absurd hsame hascii
  · intro hsame
    exact absurd hsame hascii

theorem strip?_underscore : strip? previous ['_'] = none := by
  unfold strip?
  rw [List.map_singleton, toAsciiDigit_underscore, dropSeparators?]

theorem strip?_separator :
    strip? previous ('_' :: c :: text) =
      if previous.isDigit && (toAsciiDigit c).isDigit then
        (strip? (toAsciiDigit c) text).map (toAsciiDigit c :: ·)
      else none := by
  unfold strip?
  rw [List.map_cons, List.map_cons, toAsciiDigit_underscore, dropSeparators?]

theorem ne_underscore {d : ℕ} (h : decimalDigit? c = some d) : c ≠ '_' := by
  rintro rfl
  have hnone : decimalDigit? '_' = none := by decide
  rw [hnone] at h
  cases h

/-- What is to the left matters to an underscore only. -/
theorem strip?_congr {other : Char} (h : text.head? ≠ some '_') :
    strip? previous text = strip? other text := by
  cases text with
  | nil => rfl
  | cons c rest =>
      have hc : c ≠ '_' := fun hsame => h (congrArg some hsame)
      rw [strip?_cons hc, strip?_cons hc]

/-- A character that is no digit stays. -/
theorem strip?_mark (hdigit : decimalDigit? c = none) (hc : c ≠ '_')
    (hrest : rest.head? ≠ some '_') :
    strip? previous (c :: rest) = (strip? ' ' rest).map (c :: ·) := by
  rw [strip?_cons hc, toAsciiDigit_of_none hdigit, strip?_congr hrest]

end Strip

end Literal

open Literal Numeral

/-! ## Literals of the grammar are read -/

section Forward

variable {previous c : Char} {negative : Bool} {ds whole fraction : List ℕ} {exponent : ℤ}
  {text rest sign stripped : List Char}

theorem Numeral.Run.head?_ne (h : Run ds text) : (text ++ rest).head? ≠ some '_' := by
  cases h with
  | last hd | next hd _ | separated hd _ =>
      exact fun hsame => ne_underscore hd (Option.some.inj hsame)

theorem Numeral.Run.lt_ten (h : Run ds text) : ∀ d ∈ ds, d < 10 := by
  induction h with
  | last hd => simpa using lt_ten_of_decimalDigit? hd
  | next hd _ ih | separated hd _ ih =>
      exact List.forall_mem_cons.2 ⟨lt_ten_of_decimalDigit? hd, ih⟩

theorem Numeral.Run.ne_nil (h : Run ds text) : ds ≠ [] := by
  cases h <;> exact List.cons_ne_nil _ _

/-- An underscore between a digit and a run goes. -/
theorem Numeral.Run.strip?_separated (h : Run ds text) (hprevious : previous.isDigit = true) :
    strip? previous ('_' :: (text ++ rest)) = strip? previous (text ++ rest) := by
  cases h with
  | last hd | next hd _ | separated hd _ =>
      rw [List.cons_append, strip?_separator, strip?_cons (ne_underscore hd), hprevious,
        isDigit_toAsciiDigit hd]
      rfl

theorem Numeral.Run.strip? (h : Run ds text) (hrest : rest.head? ≠ some '_') :
    strip? previous (text ++ rest) = (Literal.strip? ' ' rest).map (plainDigits ds ++ ·) := by
  induction h generalizing previous with
  | last hd =>
      rw [List.singleton_append, strip?_cons (ne_underscore hd), toAsciiDigit_of_some hd,
        strip?_congr hrest]
      rfl
  | next hd _ ih =>
      rw [List.cons_append, strip?_cons (ne_underscore hd), ih, Option.map_map,
        toAsciiDigit_of_some hd]
      rfl
  | separated hd hrun ih =>
      -- the underscore has the digit to its left and the run to its right
      rw [List.cons_append, List.cons_append, strip?_cons (ne_underscore hd),
        hrun.strip?_separated (isDigit_toAsciiDigit hd), ih, Option.map_map,
        toAsciiDigit_of_some hd]
      rfl

theorem Numeral.Sign.strip? (h : Sign negative sign) (hrest : rest.head? ≠ some '_') :
    strip? previous (sign ++ rest) = (Literal.strip? ' ' rest).map (sign ++ ·) := by
  cases h with
  | none =>
      rw [List.nil_append, strip?_congr hrest]
      exact Option.map_id'.symm
  | plus => exact strip?_mark (by decide) (by decide) hrest
  | minus => exact strip?_mark (by decide) (by decide) hrest

/-- The sign of a literal is what the reader takes for its sign. -/
theorem Numeral.Sign.splitSign (h : Sign negative sign)
    (hrest : rest.head? ≠ some '-' ∧ rest.head? ≠ some '+') :
    splitSign (sign ++ rest) = (negative, rest) := by
  cases h with
  | none =>
      rw [List.nil_append]
      unfold Literal.splitSign
      split
      · exact absurd rfl hrest.1
      · exact absurd rfl hrest.2
      · rfl
  | plus => rfl
  | minus => rfl

/-- Neither digits nor a fraction go on here. -/
def Literal.Ends (rest : List Char) : Prop := ∀ c ∈ rest.head?, c.isDigit = false ∧ c ≠ '.'

theorem isDigit_of_mem_plainDigits (h : ∀ d ∈ ds, d < 10) (hc : c ∈ plainDigits ds) :
    c.isDigit = true := by
  obtain ⟨d, hd, rfl⟩ := List.mem_map.1 hc
  rw [Nat.isDigit_digitChar]
  exact decide_eq_true (h d hd)

theorem cut_plainDigits (h : ∀ d ∈ ds, d < 10) (hrest : ∀ c ∈ rest.head?, c.isDigit = false) :
    (plainDigits ds ++ rest).takeWhile Char.isDigit = plainDigits ds ∧
      (plainDigits ds ++ rest).dropWhile Char.isDigit = rest := by
  have hdigits : ∀ c ∈ plainDigits ds, c.isDigit = true := fun c hc =>
    isDigit_of_mem_plainDigits h hc
  rw [List.takeWhile_append_of_pos hdigits, List.dropWhile_append_of_pos hdigits]
  cases rest with
  | nil => simp
  | cons c rest =>
      have hc : ¬c.isDigit = true := by simpa using hrest c rfl
      rw [List.takeWhile_cons_of_neg hc, List.dropWhile_cons_of_neg hc, List.append_nil]
      exact ⟨rfl, rfl⟩

/-- Digits behind an optional sign are not a sign. -/
theorem head?_plainDigits_ne (h : ∀ d ∈ ds, d < 10) (hc : c.isDigit = false) :
    (plainDigits ds).head? ≠ some c := by
  intro hhead
  rw [isDigit_of_mem_plainDigits h (List.mem_of_head? hhead)] at hc
  cases hc

theorem Numeral.Run.strip?_eq (h : Run ds text) :
    Literal.strip? previous text = some (plainDigits ds) := by
  have hnil : ([] : List Char).head? ≠ some '_' := by simp
  have hstrip : Literal.strip? previous (text ++ []) = _ := h.strip? hnil
  rwa [List.append_nil, strip?_nil, Option.map_some, List.append_nil] at hstrip

theorem Numeral.Sign.head?_ne (h : Sign negative sign) (hrest : rest.head? ≠ some '_') :
    (sign ++ rest).head? ≠ some '_' := by
  cases h with
  | none => exact hrest
  | plus | minus => exact fun hsame => absurd (Option.some.inj hsame) (by decide)

/-- The reader takes the power of ten for what it is. -/
theorem Numeral.Exponent.reads (h : Exponent exponent text) :
    ∃ power, (∀ previous, Literal.strip? previous text = some power) ∧
      text.head? ≠ some '_' ∧ exponent? power = some exponent ∧ Ends power := by
  cases h with
  | none =>
      refine ⟨[], fun _ => rfl, by simp, rfl, fun c hc => ?_⟩
      cases hc
  | @marked mark negative sign ds text hmark hsign hrun =>
      have hhead : text.head? ≠ some '_' := List.append_nil text ▸ hrun.head?_ne
      have hplain : decimalDigit? mark = Option.none ∧ mark ≠ '_' ∧
          mark.isDigit = false ∧ mark ≠ '.' := by
        rcases hmark with rfl | rfl <;> decide
      have hsplit : splitSign (sign ++ plainDigits ds) = (negative, plainDigits ds) :=
        hsign.splitSign ⟨head?_plainDigits_ne hrun.lt_ten rfl, head?_plainDigits_ne hrun.lt_ten rfl⟩
      refine ⟨mark :: (sign ++ plainDigits ds), fun previous => ?_, ?_, ?_, ?_⟩
      · rw [strip?_mark hplain.1 hplain.2.1 (hsign.head?_ne hhead), hsign.strip? hhead,
          hrun.strip?_eq]
        rfl
      · exact fun hsame => hplain.2.1 (Option.some.inj hsame)
      · have hdigits : plainDigits ds ≠ [] ∧ (plainDigits ds).all Char.isDigit = true :=
          ⟨plainDigits_ne_nil hrun.ne_nil,
            List.all_eq_true.2 fun c hc => isDigit_of_mem_plainDigits hrun.lt_ten hc⟩
        rw [exponent?, hsplit]
        dsimp only
        rw [if_pos ⟨hmark, hdigits⟩, natOfDigits_plainDigits hrun.lt_ten]
      · intro c hc
        obtain rfl := Option.mem_some.1 hc
        exact hplain.2.2

/-- A digit or a point. -/
def Literal.Begins (text : List Char) : Prop := ∃ c ∈ text.head?, c.isDigit = true ∨ c = '.'

theorem begins_plainDigits (h : Run ds text) : Begins (plainDigits ds ++ rest) := by
  have hlt := h.lt_ten
  cases hds : ds with
  | nil => exact absurd hds h.ne_nil
  | cons d more =>
      refine ⟨Nat.digitChar d, rfl, .inl ?_⟩
      rw [Nat.isDigit_digitChar]
      exact decide_eq_true (hlt d (hds ▸ List.mem_cons_self ..))

theorem Numeral.OptionalRun.lt_ten (h : OptionalRun ds text) : ∀ d ∈ ds, d < 10 := by
  rcases h with hrun | ⟨rfl, -⟩
  · exact hrun.lt_ten
  · exact fun d hd => absurd hd List.not_mem_nil

theorem Numeral.OptionalRun.head?_ne (h : OptionalRun ds text) (hrest : rest.head? ≠ some '_') :
    (text ++ rest).head? ≠ some '_' := by
  rcases h with hrun | ⟨-, rfl⟩
  · exact hrun.head?_ne
  · exact hrest

theorem Numeral.OptionalRun.strip? (h : OptionalRun ds text) (hrest : rest.head? ≠ some '_') :
    Literal.strip? previous (text ++ rest) =
      (Literal.strip? ' ' rest).map (plainDigits ds ++ ·) := by
  rcases h with hrun | ⟨rfl, rfl⟩
  · exact hrun.strip? hrest
  · rw [List.nil_append, strip?_congr hrest]
    exact Option.map_id'.symm

/-- Digits without a point. -/
theorem decimal?_plain (hlt : ∀ d ∈ whole, d < 10) (hwhole : whole ≠ [])
    (hpower : exponent? stripped = some exponent) (hends : Ends stripped) :
    decimal? (plainDigits whole ++ stripped) = some (natOf whole, exponent) := by
  have hcut := cut_plainDigits hlt fun c hc => (hends c hc).1
  have hfraction : splitFraction stripped = ([], stripped) := by
    unfold splitFraction
    split
    · exact absurd rfl (hends '.' rfl).2
    · rfl
  unfold decimal?
  rw [hcut.1, hcut.2, hfraction]
  dsimp only
  rw [List.append_nil, if_neg (plainDigits_ne_nil hwhole), hpower, natOfDigits_plainDigits hlt]
  simp

/-- Digits around a point. -/
theorem decimal?_pointed (hlt : ∀ d ∈ whole ++ fraction, d < 10) (hdigits : whole ++ fraction ≠ [])
    (hpower : exponent? stripped = some exponent) (hends : Ends stripped) :
    decimal? (plainDigits whole ++ '.' :: (plainDigits fraction ++ stripped)) =
      some (natOf (whole ++ fraction), exponent - fraction.length) := by
  obtain ⟨hwhole, hfraction⟩ := List.forall_mem_append.1 hlt
  have hpoint : ∀ c ∈ ('.' :: (plainDigits fraction ++ stripped)).head?, c.isDigit = false := by
    simp
  have hcut := cut_plainDigits hwhole hpoint
  have hcut' := cut_plainDigits hfraction fun c hc => (hends c hc).1
  unfold decimal?
  rw [hcut.1, hcut.2, splitFraction, hcut'.1, hcut'.2]
  dsimp only
  rw [← plainDigits_append, if_neg (plainDigits_ne_nil hdigits), hpower,
    natOfDigits_plainDigits hlt, length_plainDigits]
  rfl

/-- The reader takes the digits and the point for what they are. -/
theorem Numeral.Mantissa.reads (h : Mantissa whole fraction text)
    (hstrip : ∀ previous, Literal.strip? previous rest = some stripped)
    (hrest : rest.head? ≠ some '_') (hpower : exponent? stripped = some exponent)
    (hends : Ends stripped) :
    ∃ read, (∀ previous, Literal.strip? previous (text ++ rest) = some read) ∧ Begins read ∧
      (text ++ rest).head? ≠ some '_' ∧
      decimal? read = some (natOf (whole ++ fraction), exponent - fraction.length) := by
  cases h with
  | plain hrun =>
      refine ⟨plainDigits whole ++ stripped, fun previous => ?_, begins_plainDigits hrun,
        hrun.head?_ne, ?_⟩
      · rw [hrun.strip? hrest, hstrip]
        rfl
      · rw [decimal?_plain hrun.lt_ten hrun.ne_nil hpower hends]
        simp
  | pointed hwhole hfraction hdigits =>
      rename_i before behind
      have hsplit : before ++ '.' :: behind ++ rest = before ++ '.' :: (behind ++ rest) := by simp
      have hpoint : ('.' :: (behind ++ rest)).head? ≠ some '_' := by simp
      have hmark : ∀ previous, Literal.strip? previous ('.' :: (behind ++ rest)) =
          some ('.' :: (plainDigits fraction ++ stripped)) := by
        intro previous
        rw [strip?_mark (by decide) (by decide) (hfraction.head?_ne hrest),
          hfraction.strip? hrest, hstrip]
        rfl
      refine ⟨plainDigits whole ++ '.' :: (plainDigits fraction ++ stripped), fun previous => ?_,
        ?_, ?_, ?_⟩
      · rw [hsplit, hwhole.strip? hpoint, hmark]
        rfl
      · rcases hwhole with hrun | ⟨rfl, -⟩
        · exact begins_plainDigits hrun
        · exact ⟨'.', rfl, .inr rfl⟩
      · rw [hsplit]
        exact hwhole.head?_ne hpoint
      · have hlt := List.forall_mem_append.2 ⟨hwhole.lt_ten, hfraction.lt_ten⟩
        exact decimal?_pointed hlt hdigits hpower hends

/-- A text that begins with a digit or a point is no word. -/
theorem value?_of_begins (hsign : Sign negative sign) (h : Begins text) :
    value? (sign ++ text) = (decimal? text).map fun (digits, exponent) =>
      Binary64.ofDecimal negative digits exponent := by
  obtain ⟨c, hc, hbegins⟩ := h
  obtain ⟨rest, rfl⟩ : ∃ rest, text = c :: rest := List.head?_eq_some_iff.1 hc
  have hrange : c.val.toNat ≤ 57 ∧ c ≠ '-' ∧ c ≠ '+' := by
    rcases hbegins with hdigit | rfl
    · refine ⟨?_, fun hsame => ?_, fun hsame => ?_⟩
      · simp only [Char.isDigit, Bool.and_eq_true, decide_eq_true_eq, UInt32.le_iff_toNat_le]
          at hdigit
        exact hdigit.2
      · exact absurd (hsame ▸ hdigit) (by decide)
      · exact absurd (hsame ▸ hdigit) (by decide)
    · decide
  have hlower : c.toLower = c := by
    unfold Char.toLower
    rw [dif_neg]
    intro hupper
    have hlarge : 65 ≤ c.val.toNat := UInt32.le_iff_toNat_le.1 hupper.1
    omega
  have hword : ∀ d word, 57 < d.val.toNat → (c :: rest).map Char.toLower ≠ d :: word := by
    intro d word hd hsame
    rw [List.map_cons, hlower] at hsame
    obtain rfl := (List.cons.inj hsame).1
    omega
  have hsplit : splitSign (sign ++ c :: rest) = (negative, c :: rest) :=
    hsign.splitSign ⟨fun hsame => hrange.2.1 (Option.some.inj hsame),
      fun hsame => hrange.2.2 (Option.some.inj hsame)⟩
  have hwords : "inf".toList = ['i', 'n', 'f'] ∧
      "infinity".toList = ['i', 'n', 'f', 'i', 'n', 'i', 't', 'y'] ∧
      "nan".toList = ['n', 'a', 'n'] := by decide
  unfold value?
  rw [hsplit]
  dsimp only
  rw [hwords.1, hwords.2.1, hwords.2.2]
  rw [if_neg (not_or.2 ⟨hword 'i' _ (by decide), hword 'i' _ (by decide)⟩),
    if_neg (hword 'n' _ (by decide))]

/-- A literal of the grammar is read as the double of its digits and its power of ten. -/
theorem Numeral.Spells.reads {n : Numeral} (h : n.Spells text) :
    (Literal.strip? ' ' text).bind value? = some (.ofDecimal n.negative n.digits n.scale) := by
  obtain ⟨sign, mantissa, power, rfl, hsign, hmantissa, hexponent⟩ := h
  obtain ⟨stripped, hstrip, hhead, hpower, hends⟩ := hexponent.reads
  obtain ⟨read, hread, hbegins, hfirst, hdecimal⟩ :=
    hmantissa.reads hstrip hhead hpower hends
  rw [hsign.strip? hfirst, hread, Option.map_some, Option.bind_some, value?_of_begins hsign hbegins,
    hdecimal]
  rfl

end Forward

/-! ## Nothing else is read as a finite number -/

section Backward

variable {previous c : Char} {negative : Bool} {exponent : ℤ} {x : Binary64}
  {text rest sign read digits : List Char}

/-- What is left over begins with the first character, or with the one behind an underscore
between two digits. -/
theorem strip?_eq_some (h : strip? previous text = some read) :
    text = [] ∧ read = [] ∨ ∃ first rest tail, read = toAsciiDigit first :: tail ∧
      strip? (toAsciiDigit first) rest = some tail ∧
        (text = first :: rest ∨ previous.isDigit = true ∧ (toAsciiDigit first).isDigit = true ∧
          text = '_' :: first :: rest) := by
  cases text with
  | nil =>
      rw [strip?_nil, Option.some.injEq] at h
      exact .inl ⟨rfl, h.symm⟩
  | cons first rest =>
      by_cases hfirst : first = '_'
      · subst hfirst
        cases rest with
        | nil =>
            rw [strip?_underscore] at h
            cases h
        | cons second rest =>
            rw [strip?_separator] at h
            split at h
            case isTrue hdigits =>
              obtain ⟨tail, htail, rfl⟩ := Option.map_eq_some_iff.1 h
              obtain ⟨hprevious, hsecond⟩ := Bool.and_eq_true_iff.1 hdigits
              exact .inr ⟨second, rest, tail, rfl, htail, .inr ⟨hprevious, hsecond, rfl⟩⟩
            case isFalse => cases h
      · rw [strip?_cons hfirst] at h
        obtain ⟨tail, htail, rfl⟩ := Option.map_eq_some_iff.1 h
        exact .inr ⟨first, rest, tail, rfl, htail, .inl rfl⟩

theorem strip?_eq_nil (h : strip? previous text = some []) : text = [] := by
  rcases strip?_eq_some h with ⟨htext, -⟩ | ⟨first, rest, tail, hcons, -⟩
  · exact htext
  · cases hcons

/-- A character that is no digit has not been changed. -/
theorem strip?_eq_mark (h : strip? previous text = some (c :: read)) (hc : c.isDigit = false) :
    ∃ rest, text = c :: rest ∧ strip? c rest = some read := by
  rcases strip?_eq_some h with ⟨-, hnil⟩ | ⟨first, rest, tail, hcons, hrest, htext⟩
  · cases hnil
  obtain ⟨rfl, rfl⟩ := List.cons.inj hcons
  cases hdecimal : decimalDigit? first with
  | none =>
      rw [toAsciiDigit_of_none hdecimal] at *
      rcases htext with htext | ⟨-, hdigit, -⟩
      · exact ⟨rest, htext, hrest⟩
      · rw [hc] at hdigit
        cases hdigit
  | some d =>
      rw [isDigit_toAsciiDigit hdecimal] at hc
      cases hc

/-- A digit comes from a decimal digit, behind an underscore only if a digit is to the left. -/
theorem strip?_eq_digit (h : strip? previous text = some (c :: read)) (hc : c.isDigit = true) :
    ∃ first d rest, decimalDigit? first = some d ∧ c = Nat.digitChar d ∧
      strip? c rest = some read ∧
        (text = first :: rest ∨ previous.isDigit = true ∧ text = '_' :: first :: rest) := by
  rcases strip?_eq_some h with ⟨-, hnil⟩ | ⟨first, rest, tail, hcons, hrest, htext⟩
  · cases hnil
  obtain ⟨rfl, rfl⟩ := List.cons.inj hcons
  cases hdecimal : decimalDigit? first with
  | none =>
      rw [toAsciiDigit_of_none hdecimal] at hc
      rw [decimalDigit?_of_isDigit hc] at hdecimal
      cases hdecimal
  | some d =>
      exact ⟨first, d, rest, hdecimal, toAsciiDigit_of_some hdecimal, hrest,
        htext.imp_right fun h => ⟨h.1, h.2.2⟩⟩

/-- Behind a digit its run goes on. -/
theorem exists_run_behind {first : Char} {d : ℕ} (hfirst : decimalDigit? first = some d)
    (hdigits : ∀ c ∈ digits, c.isDigit = true) (hprevious : previous.isDigit = true)
    (h : strip? previous text = some (digits ++ read)) :
    ∃ ds run rest last, Run (d :: ds) (first :: run) ∧ text = run ++ rest ∧
      digits = plainDigits ds ∧ strip? last rest = some read := by
  -- on the digits that are left over: the text is longer by its underscores
  induction digits generalizing first d previous text with
  | nil => exact ⟨[], [], text, previous, .last hfirst, rfl, rfl, h⟩
  | cons c digits ih =>
      obtain ⟨hc, hrest⟩ := List.forall_mem_cons.1 hdigits
      obtain ⟨next, e, behind, hnext, rfl, hstrip, htext⟩ := strip?_eq_digit h hc
      obtain ⟨ds, run, rest, last, hrun, rfl, rfl, hlast⟩ := ih hnext hrest hc hstrip
      rcases htext with rfl | ⟨-, rfl⟩
      · exact ⟨e :: ds, next :: run, rest, last, .next hfirst hrun, rfl, rfl, hlast⟩
      · exact ⟨e :: ds, '_' :: next :: run, rest, last, .separated hfirst hrun, rfl, rfl, hlast⟩

/-- Digits that are left over come from a run. -/
theorem exists_optionalRun (hdigits : ∀ c ∈ digits, c.isDigit = true)
    (hprevious : previous.isDigit = false) (h : strip? previous text = some (digits ++ read)) :
    ∃ ds run rest last, OptionalRun ds run ∧ text = run ++ rest ∧ digits = plainDigits ds ∧
      strip? last rest = some read := by
  cases digits with
  | nil => exact ⟨[], [], text, previous, .inr ⟨rfl, rfl⟩, rfl, rfl, h⟩
  | cons c digits =>
      obtain ⟨hc, hrest⟩ := List.forall_mem_cons.1 hdigits
      obtain ⟨first, d, behind, hfirst, rfl, hstrip, htext | ⟨hdigit, -⟩⟩ := strip?_eq_digit h hc
      · obtain ⟨ds, run, rest, last, hrun, rfl, rfl, hlast⟩ :=
          exists_run_behind hfirst hrest hc hstrip
        exact ⟨d :: ds, first :: run, rest, last, .inl hrun, htext, rfl, hlast⟩
      · rw [hprevious] at hdigit
        cases hdigit

theorem exists_sign (h : splitSign text = (negative, rest)) :
    ∃ sign, Sign negative sign ∧ text = sign ++ rest := by
  unfold splitSign at h
  split at h
  · obtain ⟨rfl, rfl⟩ := Prod.mk.inj h
    exact ⟨_, .minus, rfl⟩
  · obtain ⟨rfl, rfl⟩ := Prod.mk.inj h
    exact ⟨_, .plus, rfl⟩
  · obtain ⟨rfl, rfl⟩ := Prod.mk.inj h
    exact ⟨_, .none, rfl⟩

/-- A sign that is left over has stood there. -/
theorem Numeral.Sign.strip?_eq (hsign : Sign negative sign) (hprevious : previous.isDigit = false)
    (h : Literal.strip? previous text = some (sign ++ read)) :
    ∃ last rest, text = sign ++ rest ∧ last.isDigit = false ∧
      Literal.strip? last rest = some read := by
  cases hsign with
  | none => exact ⟨previous, text, rfl, hprevious, h⟩
  | plus | minus =>
      obtain ⟨rest, rfl, hrest⟩ := strip?_eq_mark h (by decide)
      exact ⟨_, rest, rfl, by decide, hrest⟩

/-- What the reader takes for a power of ten is one. -/
theorem exponent_of_exponent? (hread : exponent? read = some exponent)
    (h : strip? previous text = some read) : Exponent exponent text := by
  cases read with
  | nil =>
      obtain rfl := strip?_eq_nil h
      obtain rfl := Option.some.inj hread
      exact .none
  | cons mark behind =>
      obtain ⟨sign, hsign, hbehind⟩ := exists_sign (Prod.mk.eta (p := splitSign behind)).symm
      unfold exponent? at hread
      dsimp only at hread
      split at hread
      case isFalse => cases hread
      case isTrue hparts =>
        obtain ⟨hmark, hne, hall⟩ := hparts
        have hdigit : mark.isDigit = false := by rcases hmark with rfl | rfl <;> rfl
        obtain ⟨rest, rfl, hrest⟩ := strip?_eq_mark h hdigit
        rw [hbehind] at hrest
        obtain ⟨last, rest, rfl, hlast, hrest⟩ := hsign.strip?_eq hdigit hrest
        rw [← List.append_nil (splitSign behind).2] at hrest
        obtain ⟨ds, run, rest, last, hrun, rfl, hds, hend⟩ :=
          exists_optionalRun (List.all_eq_true.1 hall) hlast hrest
        obtain rfl := strip?_eq_nil hend
        rcases hrun with hrun | ⟨rfl, -⟩
        · obtain rfl := Option.some.inj hread
          rw [hds, natOfDigits_plainDigits hrun.lt_ten, List.append_nil]
          exact .marked hmark hsign hrun
        · exact absurd hds hne

/-- A fraction that is split off stands behind a point. -/
theorem splitFraction_cases {tail fraction : List Char}
    (h : splitFraction tail = (fraction, rest)) :
    tail = '.' :: (fraction ++ rest) ∧ (∀ c ∈ fraction, c.isDigit = true) ∨
      fraction = [] ∧ tail = rest := by
  unfold splitFraction at h
  split at h
  · obtain ⟨rfl, rfl⟩ := Prod.mk.inj h
    rw [List.takeWhile_append_dropWhile]
    exact .inl ⟨rfl, List.all_eq_true.1 List.all_takeWhile⟩
  · obtain ⟨rfl, rfl⟩ := Prod.mk.inj h
    exact .inr ⟨rfl, rfl⟩

/-- What the reader takes for a decimal is one. -/
theorem mantissa_of_decimal? {value : ℕ × ℤ} (hread : decimal? read = some value)
    (hprevious : previous.isDigit = false) (h : strip? previous text = some read) :
    ∃ whole fraction exponent mantissa power, text = mantissa ++ power ∧
      Mantissa whole fraction mantissa ∧ Exponent exponent power ∧
        value = (natOf (whole ++ fraction), exponent - fraction.length) := by
  obtain ⟨fraction, rest, hfraction⟩ : ∃ fraction rest,
      splitFraction (read.dropWhile Char.isDigit) = (fraction, rest) := ⟨_, _, rfl⟩
  have hdigits : ∀ c ∈ read.takeWhile Char.isDigit, c.isDigit = true :=
    List.all_eq_true.1 List.all_takeWhile
  have hcut := h.trans (congrArg some (List.takeWhile_append_dropWhile (p := Char.isDigit)).symm)
  obtain ⟨whole, before, behind, last, hwhole, rfl, hds, hbehind⟩ :=
    exists_optionalRun hdigits hprevious hcut
  unfold decimal? at hread
  rw [hfraction, hds] at hread
  dsimp only at hread
  split at hread
  · cases hread
  next hne =>
    obtain ⟨exponent, hexponent, rfl⟩ := Option.map_eq_some_iff.1 hread
    rcases splitFraction_cases hfraction with ⟨hpoint, hdigits'⟩ | ⟨rfl, hnone⟩
    · -- there is a point
      rw [hpoint] at hbehind
      obtain ⟨behind, rfl, hrest⟩ := strip?_eq_mark hbehind rfl
      obtain ⟨decimals, after, power, last, hdecimals, rfl, rfl, hpower⟩ :=
        exists_optionalRun hdigits' rfl hrest
      have hlt := List.forall_mem_append.2 ⟨hwhole.lt_ten, hdecimals.lt_ten⟩
      have hsome : whole ++ decimals ≠ [] := fun hnil => hne (by
        rw [← plainDigits_append, hnil]
        rfl)
      refine ⟨whole, decimals, exponent, before ++ '.' :: after, power, by simp,
        .pointed hwhole hdecimals hsome, exponent_of_exponent? hexponent hpower, ?_⟩
      rw [← plainDigits_append, natOfDigits_plainDigits hlt, length_plainDigits]
    · rw [hnone] at hbehind
      rcases hwhole with hrun | ⟨rfl, -⟩
      · refine ⟨whole, [], exponent, before, behind, rfl, .plain hrun,
          exponent_of_exponent? hexponent hbehind, ?_⟩
        rw [List.append_nil, List.append_nil, natOfDigits_plainDigits hrun.lt_ten]
        rfl
      · exact absurd rfl hne

/-- What is read as a finite number is a literal of the grammar. -/
theorem exists_spells (h : (strip? ' ' text).bind value? = some x) (hx : x.isFinite = true) :
    ∃ n : Numeral, n.Spells text ∧ x = .ofDecimal n.negative n.digits n.scale := by
  obtain ⟨read, hstrip, hvalue⟩ := Option.bind_eq_some_iff.1 h
  obtain ⟨sign, hsign, hread⟩ := exists_sign (Prod.mk.eta (p := splitSign read)).symm
  unfold value? at hvalue
  dsimp only at hvalue
  split at hvalue
  · obtain rfl := Option.some.inj hvalue
    cases hx
  split at hvalue
  · obtain rfl := Option.some.inj hvalue
    cases hx
  obtain ⟨value, hdecimal, rfl⟩ := Option.map_eq_some_iff.1 hvalue
  rw [hread] at hstrip
  obtain ⟨last, rest, rfl, hlast, hrest⟩ := hsign.strip?_eq rfl hstrip
  obtain ⟨whole, fraction, exponent, mantissa, power, rfl, hmantissa, hexponent, rfl⟩ :=
    mantissa_of_decimal? hdecimal hlast hrest
  exact ⟨⟨_, whole, fraction, exponent⟩, ⟨sign, mantissa, power, rfl, hsign, hmantissa, hexponent⟩,
    rfl⟩

end Backward

/-- A text is read as a finite number just if it is a literal of the grammar whose double is
finite, and then as that double. -/
theorem read_spelled_iff {text : List Char} {x : Binary64} (hx : x.isFinite = true) :
    (strip? ' ' text).bind value? = some x ↔
      ∃ n : Numeral, n.Spells text ∧ x = .ofDecimal n.negative n.digits n.scale := by
  constructor
  · exact fun h => exists_spells h hx
  · rintro ⟨n, hn, rfl⟩
    exact hn.reads

end AlgoBox.Numeric
