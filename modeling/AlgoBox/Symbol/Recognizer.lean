import AlgoBox.Symbol.Basic

/-!
# Recognizers

One recognizer for each kind of symbol. A recognizer says how many characters
at the start of a text it matches, and which part of the match is the text of
the symbol. The recognizers are tried in the order of the table and the first
match wins; since no two of them match at the same place, any order would do.
-/

namespace AlgoBox.Symbol

/-- The characters that ordinary text cannot hold. -/
def isReserved (c : Char) : Bool :=
  ['\\', '{', '}', '$', '&', '#', '%', '_'].contains c

/-- The letters of command words. -/
def isLetter (c : Char) : Bool := c.isAlpha

namespace Recognizer

/-- A backslash and a reserved character. -/
def specialLength? : List Char → Option Nat
  | '\\' :: c :: _ => if isReserved c then some 2 else none
  | _ => none

/-- A backslash and at least one letter. -/
def wordLength? : List Char → Option Nat
  | '\\' :: c :: rest => if isLetter c then some (2 + (rest.takeWhile isLetter).length) else none
  | _ => none

/-- One given character. -/
def charLength? (expected : Char) : List Char → Option Nat
  | c :: _ => if c = expected then some 1 else none
  | [] => none

/-- A run of characters that are not reserved. -/
def ordinaryLength? : List Char → Option Nat
  | c :: rest =>
    if isReserved c then none else some (1 + (rest.takeWhile fun c => !isReserved c).length)
  | [] => none

/-- The number of characters up to and including the first dollar that has no
backslash right before it. `escaped` says whether a backslash stands right
before the text. -/
def throughDollar? (escaped : Bool) : List Char → Option Nat
  | [] => none
  | c :: rest =>
    if c = '$' ∧ escaped = false then some 1 else (throughDollar? (c = '\\') rest).map (· + 1)

/-- A formula between dollars. A dollar right after a backslash belongs to the
formula; a formula that is not closed does not match. -/
def mathLength? : List Char → Option Nat
  | '$' :: rest => (throughDollar? false rest).map (· + 1)
  | _ => none

/-! Every match has at least one character. -/

theorem specialLength?_pos {s : List Char} {n : Nat} (h : specialLength? s = some n) : 0 < n := by
  simp only [specialLength?] at h
  grind

theorem wordLength?_pos {s : List Char} {n : Nat} (h : wordLength? s = some n) : 0 < n := by
  simp only [wordLength?] at h
  grind

theorem charLength?_pos {c : Char} {s : List Char} {n : Nat} (h : charLength? c s = some n) :
    0 < n := by
  simp only [charLength?] at h
  grind

theorem ordinaryLength?_pos {s : List Char} {n : Nat} (h : ordinaryLength? s = some n) :
    0 < n := by
  simp only [ordinaryLength?] at h
  grind

theorem mathLength?_pos {s : List Char} {n : Nat} (h : mathLength? s = some n) : 0 < n := by
  simp only [mathLength?] at h
  split at h
  · simp only [Option.map_eq_some_iff] at h
    omega
  · contradiction

end Recognizer

/-- A recognizer of one kind of symbol: the number of characters matched at the
start of a text, at least one, and how many at either end of a match are not
part of its text. -/
structure Recognizer where
  kind : Kind
  length? : List Char → Option Nat
  opening : Nat
  closing : Nat
  length_pos : ∀ {s : List Char} {n : Nat}, length? s = some n → 0 < n

namespace Recognizer

/-- The recognizers in the order in which they are tried. -/
def table : List Recognizer :=
  [⟨.special, specialLength?, 0, 0, specialLength?_pos⟩,
   ⟨.word, wordLength?, 1, 0, wordLength?_pos⟩,
   ⟨.openBrace, charLength? '{', 0, 0, charLength?_pos⟩,
   ⟨.closeBrace, charLength? '}', 0, 0, charLength?_pos⟩,
   ⟨.ordinary, ordinaryLength?, 0, 0, ordinaryLength?_pos⟩,
   ⟨.math, mathLength?, 1, 1, mathLength?_pos⟩]

/-- The text of a match of the given length at the start of `s`. -/
def textOf (r : Recognizer) (length : Nat) (s : List Char) : String :=
  String.ofList ((s.take (length - r.closing)).drop r.opening)

end Recognizer

/-- A match at the start of a text: the kind of symbol, its text, and the number
of characters matched. -/
structure Match where
  kind : Kind
  text : String
  length : Nat

/-- The match of one recognizer at the start of a text. -/
def Recognizer.match? (r : Recognizer) (s : List Char) : Option Match :=
  (r.length? s).map fun n => ⟨r.kind, r.textOf n s, n⟩

/-- The first match of some recognizers at the start of a text. -/
def firstMatch? (recognizers : List Recognizer) (s : List Char) : Option Match :=
  recognizers.findSome? (·.match? s)

theorem length_pos_of_firstMatch? {recognizers : List Recognizer} {s : List Char} {m : Match}
    (h : firstMatch? recognizers s = some m) : 0 < m.length := by
  obtain ⟨r, -, hm⟩ := List.exists_of_findSome?_eq_some h
  simp only [Recognizer.match?, Option.map_eq_some_iff] at hm
  obtain ⟨n, hn, rfl⟩ := hm
  exact r.length_pos hn

end AlgoBox.Symbol
