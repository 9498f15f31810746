import AlgoBox.Symbol.Recognizer
import AlgoBox.Text.Classes

/-!
# Scanning

A source is cut into symbols from left to right. Blanks in front of a symbol are
skipped; the cut ends at the end of the source or at text that no recognizer
matches.
-/

namespace AlgoBox.Symbol

open Text

/-- How the cut of a source of some length ends: with the whole source cut, or
at an offset where no symbol starts. -/
inductive Ending where
  | complete (length : Nat)
  | unrecognized (offset : Nat)
deriving DecidableEq

/-- The symbols of a source in order, without the end of the source, and how
the cut ends. -/
structure Scan where
  symbols : List Symbol
  ending : Ending
deriving DecidableEq

/-- Puts a symbol in front. -/
def Scan.cons (s : Symbol) (scan : Scan) : Scan := ⟨s :: scan.symbols, scan.ending⟩

/-- Cuts the rest of a source, which starts at `offset`, by means of some
recognizers. -/
def scanFrom (recognizers : List Recognizer) (offset : Nat) (s : List Char) : Scan :=
  let rest := s.dropWhile isBlank
  let start := offset + (s.takeWhile isBlank).length
  if _hrest : rest = [] then ⟨[], .complete start⟩
  else
    match _hm : firstMatch? recognizers rest with
    | none => ⟨[], .unrecognized start⟩
    | some m =>
      (scanFrom recognizers (start + m.length) (rest.drop m.length)).cons
        ⟨m.kind, some m.text, start, start + m.length⟩
termination_by s.length
decreasing_by
  have hpos := length_pos_of_firstMatch? _hm
  have hle : (s.dropWhile isBlank).length ≤ s.length := (List.dropWhile_sublist _).length_le
  have hne : 0 < (s.dropWhile isBlank).length := List.length_pos_iff.2 _hrest
  simp only [List.length_drop]
  omega

/-- Cuts a source into symbols. -/
def scan (source : List Char) : Scan := scanFrom Recognizer.table 0 source

end AlgoBox.Symbol
