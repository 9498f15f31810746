/-!
# Source locations

Lines and columns of offsets in a source. Offsets count characters from zero,
lines and columns count from one, and a line ends at a line feed only. A
location can be found by scanning the source up to the offset
(`Location.ofOffset`) or through a table of line starts (`LineTable`), which
serves many offsets of one source.
-/

namespace AlgoBox.Source

/-- A stretch of a source, from the offset of its first character to the one
just past the last, with the line and column of its start, both counted from
one. -/
structure Location where
  line : Int
  column : Int
  start : Int
  stop : Int
deriving DecidableEq

/-- A location as messages give it: the line and the column. -/
def Location.text (l : Location) : String := toString l.line ++ ":" ++ toString l.column

/-- An offset moved to the nearest end of the source if it lies outside. -/
def clamp (source : List Char) (offset : Int) : Nat := min offset.toNat source.length

/-- The number of characters between the start of the last line and the end. -/
def lastLineLength (s : List Char) : Nat := (s.reverse.takeWhile (· ≠ '\n')).length

/-- The location of an offset, found by scanning. Without an end the location
is empty; offsets outside the source are moved to its nearest end. -/
def Location.ofOffset (source : List Char) (offset : Int) (stop : Option Int) : Location :=
  let start := clamp source offset
  let before := source.take start
  { line := before.count '\n' + 1
    column := lastLineLength before + 1
    start
    stop := stop.getD start }

/-- The offsets at which the lines of a source start, ascending; the first line
starts at zero. -/
structure LineTable where
  starts : Array Nat

namespace LineTable

/-- The offsets just past the line feeds of a text that begins at `offset`. -/
def startsFrom (offset : Nat) : List Char → List Nat
  | [] => []
  | c :: rest =>
    if c = '\n' then (offset + 1) :: startsFrom (offset + 1) rest else startsFrom (offset + 1) rest

/-- The line starts of a source. -/
def ofSource (source : List Char) : LineTable := ⟨(0 :: startsFrom 0 source).toArray⟩

/-- The number of starts at or before an offset, if it lies between `low` and
`high`; found by halving the stretch between them. -/
def countUpTo (table : LineTable) (offset : Int) (low high : Nat)
    (high_le : high ≤ table.starts.size) : Nat :=
  if _h : low < high then
    let middle := (low + high) / 2
    if offset < table.starts[middle] then
      table.countUpTo offset low middle (by omega)
    else table.countUpTo offset (middle + 1) high high_le
  else low
termination_by high - low

/-- The location of an offset, found in the table. An offset before the source
is given line zero and a column that counts from the start of the last line. -/
def location (table : LineTable) (offset : Int) (stop : Option Int) : Location :=
  let line := table.countUpTo offset 0 table.starts.size (Nat.le_refl _)
  let lineStart := table.starts.getD (if line = 0 then table.starts.size - 1 else line - 1) 0
  { line
    column := offset - lineStart + 1
    start := offset
    stop := stop.getD offset }

end LineTable

end AlgoBox.Source
