import AlgoBox.Proofs.Deciding
import AlgoBox.Proofs.Formatting
import AlgoBox.Proofs.LineNumbers

/-!
# Lengths in styles

The output holds lengths in three places: the margin of a block, the hanging indent of a line
outside all blocks, and how far left of a line its number stands. The first two are the indent,
and written as decimals for every indent. The third grows with the number of blocks around the
line: it is written as a decimal exactly as long as the product is rounded to a finite double, and
otherwise as `inf` (`styleLengths_of_parse`).

Which blocks stand around a line can be told from its box, so the lengths are found box by box
(`Box.Styled`).
-/

namespace AlgoBox

open Numeric Binary64 Html Grammar

variable {α : Type}

/-! ## Sums and products of lengths -/

/-- The text is a number literal. -/
def Numeric.IsDecimal (text : String) : Prop := ∃ q, Literal.number? text.toList = some q

namespace Numeric.Binary64

-- powers of naturals are the core ones, as in the definition of a double
attribute [local instance (high)] instPowNat

variable {count : ℕ} {negative : Bool} {rank : Fin infinityRank}

theorem nearest_eq_finite (h : (count : ℚ) / unitsPerOne < overflow) :
    ∃ rank : Fin infinityRank, nearest false count 1 = .finite false rank := by
  have hnearest := isNearest_nearestRank count Nat.one_pos
  rw [Nat.cast_one, div_one] at hnearest
  have hrank := hnearest.lt_infinityRank_iff.2 h
  exact ⟨⟨_, hrank⟩, dif_pos hrank⟩

theorem nearest_eq_infinite (h : ¬(count : ℚ) / unitsPerOne < overflow) :
    nearest false count 1 = .infinite false := by
  have hnearest := isNearest_nearestRank count Nat.one_pos
  rw [Nat.cast_one, div_one] at hnearest
  exact dif_neg (hnearest.lt_infinityRank_iff.not.2 h)

/-- The sign of a number that is not negative does not matter. -/
theorem signedUnits_of_not_isNegative (h : (Binary64.finite negative rank).isNegative = false) :
    signedUnits negative rank = units rank := by
  cases negative with
  | false => rfl
  | true =>
      have hzero : rank.val = 0 := by simpa [isNegative] using h
      simp [signedUnits, hzero, units_zero]

/-- A sum that is not zero and does not overflow. -/
theorem add_eq_finite {gap : Fin infinityRank}
    (h : (Binary64.finite negative rank).isNegative = false) (hgap : 0 < units gap)
    (hsmall : ((units rank + units gap : ℕ) : ℚ) / unitsPerOne < overflow) :
    ∃ sum : Fin infinityRank,
      (Binary64.finite negative rank).add (.finite false gap) = .finite false sum := by
  have hsum : signedUnits negative rank + signedUnits false gap =
      ((units rank + units gap : ℕ) : ℤ) := by
    rw [signedUnits_of_not_isNegative h, Nat.cast_add]
    rfl
  have hne : ((units rank + units gap : ℕ) : ℤ) ≠ 0 := by omega
  have hnonneg : ¬((units rank + units gap : ℕ) : ℤ) < 0 := by omega
  obtain ⟨sum, hnearest⟩ := nearest_eq_finite hsmall
  refine ⟨sum, ?_⟩
  show (if _ = 0 then _ else nearest _ _ 1) = _
  rw [hsum, if_neg hne, decide_eq_false hnonneg, Int.natAbs_natCast]
  exact hnearest

end Numeric.Binary64

/-- The double of an indent has a rank. -/
theorem Indent.exists_rank (indent : Indent) : ∃ negative rank,
    indent.toBinary64 = .finite negative rank ∧
      (Binary64.finite negative rank).isNegative = false := by
  obtain ⟨hfinite, hnegative⟩ := indent.isLength
  cases hindent : indent.toBinary64 with
  | nan | infinite =>
      rw [hindent] at hfinite
      cases hfinite
  | finite negative rank =>
      rw [hindent] at hnegative
      exact ⟨negative, rank, rfl, hnegative⟩

namespace Html

-- powers of naturals are the core ones, as in the definition of a double
attribute [local instance (high)] instPowNat

/-- How far the number of a line moves to the left for one block more. -/
def numberStep (indent : Indent) : Binary64 := indent.toBinary64.add lineNumberGap

/-- Next to the largest doubles the gap is nothing, so the indent with the gap is finite. -/
theorem numberStep_eq_finite (indent : Indent) :
    ∃ rank : Fin infinityRank, numberStep indent = .finite false rank := by
  obtain ⟨gap, hgap, hpos, hsmall⟩ : ∃ gap : Fin infinityRank,
      lineNumberGap = .finite false gap ∧ 0 < units gap ∧
        units (infinityRank - 1) + units gap < (2 ^ 1024 - 2 ^ 970) * unitsPerOne :=
    ⟨⟨4599075939470750515, by decide⟩, by decide +kernel⟩
  obtain ⟨negative, rank, hindent, hnegative⟩ := indent.exists_rank
  unfold numberStep
  rw [hgap, hindent]
  refine add_eq_finite hnegative hpos ?_
  have hone : (0 : ℚ) < unitsPerOne := Nat.cast_pos.2 unitsPerOne_pos
  have hpowers : 2 ^ 970 ≤ 2 ^ 1024 := by gcongr <;> decide
  have hlargest := strictMono_units.monotone (Nat.le_sub_one_of_lt rank.isLt)
  have hcount : units rank + units gap < (2 ^ 1024 - 2 ^ 970) * unitsPerOne :=
    Nat.lt_of_le_of_lt (Nat.add_le_add_right hlargest _) hsmall
  have hoverflow : overflow * unitsPerOne = (((2 ^ 1024 - 2 ^ 970) * unitsPerOne : ℕ) : ℚ) := by
    rw [Nat.cast_mul, Nat.cast_sub hpowers, Nat.cast_pow, Nat.cast_pow, Nat.cast_ofNat, overflow]
  rw [div_lt_iff₀ hone, hoverflow]
  exact_mod_cast hcount

/-- The number of a line inside these many blocks stands no further to the left than a finite
double can say. -/
def OffsetFits (indent : Indent) (depth : ℕ) : Prop :=
  ((depth - 1 : ℕ) : ℚ) * (numberStep indent).exactValue < overflow

instance (indent : Indent) (depth : ℕ) : Decidable (OffsetFits indent depth) :=
  inferInstanceAs (Decidable (_ < _))

theorem isDecimal_offset {indent : Indent} {depth : ℕ} (h : OffsetFits indent depth) :
    IsDecimal (Em.format (lineNumberOffset indent.toBinary64 depth)) := by
  obtain ⟨rank, hstep⟩ := numberStep_eq_finite indent
  unfold OffsetFits at h
  rw [hstep] at h
  have hsmall : (((depth - 1) * units rank : ℕ) : ℚ) / unitsPerOne < overflow := by
    rw [Nat.cast_mul, mul_div_assoc]
    exact h
  obtain ⟨offset, hoffset⟩ := nearest_eq_finite hsmall
  have hscale : lineNumberOffset indent.toBinary64 depth = .finite false offset := by
    unfold lineNumberOffset
    rw [show indent.toBinary64.add lineNumberGap = _ from hstep]
    exact hoffset
  rw [hscale]
  exact ⟨_, (Em.says_format rfl).number?⟩

theorem offset_eq_inf {indent : Indent} {depth : ℕ} (h : ¬OffsetFits indent depth) :
    Em.format (lineNumberOffset indent.toBinary64 depth) = "inf" := by
  obtain ⟨rank, hstep⟩ := numberStep_eq_finite indent
  unfold OffsetFits at h
  rw [hstep] at h
  have hlarge : ¬(((depth - 1) * units rank : ℕ) : ℚ) / unitsPerOne < overflow := by
    rw [Nat.cast_mul, mul_div_assoc]
    exact h
  have hscale : lineNumberOffset indent.toBinary64 depth = .infinite false := by
    unfold lineNumberOffset
    rw [show indent.toBinary64.add lineNumberGap = _ from hstep]
    exact nearest_eq_infinite hlarge
  rw [hscale]
  rfl

theorem not_isDecimal_inf : ¬IsDecimal "inf" := by
  have hnone : Literal.number? "inf".toList = none := rfl
  rintro ⟨q, hq⟩
  rw [hnone] at hq
  cases hq

/-- The indent is written as a decimal. -/
theorem isDecimal_indent (indent : Indent) : IsDecimal (Em.format indent.toBinary64) := by
  obtain ⟨negative, rank, hindent, hnegative⟩ := indent.exists_rank
  rw [hindent]
  exact ⟨_, (Em.says_format hnegative).number?⟩

/-! ## Lengths in the output -/

/-- The lengths in em in the style of a fragment. -/
def Fragment.styleLengths : Fragment → List String
  | .openDiv (.block margin) => [margin]
  | .openLine (.hanging indent) => [indent, indent]
  | .lineNumber offset _ _ => [offset]
  | _ => []

/-- The lengths in em in the styles of some fragments. -/
def styleLengths (fragments : List Fragment) : List String :=
  fragments.flatMap Fragment.styleLengths

/-- A length stands in the markup of its fragment with the unit behind it. -/
theorem Fragment.markup_of_mem_styleLengths {fragment : Fragment} {length : String}
    (h : length ∈ fragment.styleLengths) :
    ∃ front back, fragment.markup = front ++ (length ++ "em;") ++ back := by
  -- the unit is put apart from what a tag goes on with
  have hsplit : ∀ {unit rest more : String}, unit = "em;" ++ rest → ∀ front,
      front ++ length ++ unit ++ more = front ++ (length ++ "em;") ++ (rest ++ more) := by
    rintro unit rest more rfl front
    simp only [String.append_assoc]
  cases fragment with
  | openDiv div =>
      cases div with
      | block margin =>
          obtain rfl := List.mem_singleton.1 h
          exact ⟨_, _, (String.append_empty).symm.trans (hsplit (by decide : _ = _ ++ "\">") _)⟩
      | _ => cases h
  | openLine line =>
      cases line with
      | hanging indent =>
          obtain rfl : length = indent := by simpa [styleLengths] using h
          have hmore : ∀ front unit rest : String, front ++ length ++ unit ++ length ++ rest =
              front ++ length ++ unit ++ (length ++ rest) := fun _ _ _ => String.append_assoc
          exact ⟨_, _, (hmore _ _ _).trans (hsplit (by decide : _ = _ ++ "padding-left:") _)⟩
      | _ => cases h
  | lineNumber offset number punc =>
      obtain rfl := List.mem_singleton.1 h
      have hmore : ∀ front unit rest : String,
          front ++ length ++ unit ++ toString number ++ punc ++ rest =
            front ++ length ++ unit ++ (toString number ++ (punc ++ rest)) := by
        intro front unit rest
        simp only [String.append_assoc]
      exact ⟨_, _, (hmore _ _ _).trans (hsplit (by decide : _ = _ ++ "\">") _)⟩
  | _ => cases h

/-! ## Boxes in the style of the options -/

/-- A line inside some containers is set as the options say: outside of blocks it hangs by the
indent, and it is numbered if lines are and it is a code line, as far to the left as the number of
blocks around it asks for. -/
structure Row.Styled (options : Options) (around : List Div) (row : Row) : Prop where
  hanging : ∀ indent, row.line = .hanging indent → indent = Em.format options.indent.toBinary64
  offset : row.number.map LineNumber.offset =
    if options.lineNumber.isTrue = true ∧ row.line = .code then
      some (Em.format (lineNumberOffset options.indent.toBinary64 (blocksIn around)))
    else none

/-- The lines in a box inside some containers are set as the options say, and the blocks in it are
indented by the indent. -/
inductive Box.Styled (options : Options) : List Div → Box → Prop where
  | line {around : List Div} {row : Row} (hrow : row.Styled options around) :
    Styled options around (.line row)
  | container {around : List Div} {div : Div} {content : List Box}
    (hmargin : ∀ margin, div = .block margin → margin = Em.format options.indent.toBinary64)
    (hcontent : ∀ box ∈ content, Styled options (div :: around) box) :
    Styled options around (.container div content)

section Drawing

variable {options : Options} {around : List Div} {content : List Inline} {row : Row} {s : Sheet}
  {marks marks' : List Mark}

theorem rowAt_styled (count : ℕ) :
    (rowAt options (blocksIn around) count content).Styled options around := by
  unfold rowAt
  split
  · refine ⟨nofun, ?_⟩
    by_cases hnumbered : options.lineNumber.isTrue = true
    · rw [if_pos hnumbered, if_pos ⟨hnumbered, rfl⟩]
      rfl
    · rw [if_neg hnumbered, if_neg fun h => hnumbered h.1]
      rfl
  · refine ⟨?_, (if_neg fun h => nomatch h.2).symm⟩
    rintro indent ⟨⟩
    rfl

/-- All boxes of a sheet inside some containers are set as the options say. -/
def Sheet.Styled (options : Options) (around : List Div) (s : Sheet) : Prop :=
  ∀ box ∈ s.boxes, box.Styled options around

theorem Sheet.Styled.below {box : Box} {s' : Sheet} (hs : s.Styled options around)
    (hbox : box.Styled options around) (hboxes : s'.boxes = s.boxes ++ [box]) :
    s'.Styled options around := by
  intro other hother
  rw [hboxes, List.mem_append, List.mem_singleton] at hother
  rcases hother with hother | rfl
  · exact hs other hother
  · exact hbox

theorem Sheet.Styled.start (hs : s.Styled options around) :
    (s.start options (blocksIn around) content).Styled options around :=
  hs.below (.line (rowAt_styled s.count)) rfl

theorem Sheet.Styled.add (hs : s.Styled options around) :
    (s.add content).Styled options around := by
  intro box hbox
  unfold Sheet.boxes Sheet.add at hbox
  cases hrow : s.row with
  | none =>
      refine hs box ?_
      unfold Sheet.boxes
      simpa [hrow] using hbox
  | some row =>
      simp only [hrow, Option.map_some, Option.toList_some, List.map_cons, List.map_nil,
        List.mem_append, List.mem_singleton] at hbox
      rcases hbox with hbox | rfl
      · exact hs box (List.mem_append_left _ hbox)
      · have hrow' : (Box.line row).Styled options around :=
          hs _ (List.mem_append_right _ (by simp [hrow]))
        cases hrow' with
        | line h => exact .line ⟨h.hanging, h.offset⟩

theorem Sheet.Styled.join (hs : s.Styled options around) :
    (s.join options (blocksIn around) content).Styled options around := by
  unfold Sheet.join
  split
  · exact hs.add
  · exact hs.start

/-- Marks inside some containers keep a sheet set as the options say. -/
def KeepsStyle (options : Options) (around : List Div) (marks : List Mark) : Prop :=
  ∀ s : Sheet, s.Styled options around →
    (s.writeAll options (blocksIn around) marks).Styled options around

namespace KeepsStyle

theorem nil : KeepsStyle options around [] := fun _ => id

theorem append (h : KeepsStyle options around marks) (h' : KeepsStyle options around marks') :
    KeepsStyle options around (marks ++ marks') := by
  intro s hs
  rw [Sheet.writeAll_append]
  exact h' _ (h s hs)

theorem start : KeepsStyle options around [.start content] := fun _ => Sheet.Styled.start

theorem join : KeepsStyle options around [.join content] := fun _ => Sheet.Styled.join

theorem alone : KeepsStyle options around [.alone content] := by
  intro s hs box hbox
  exact hs.start box (Sheet.boxes_close _ ▸ hbox)

theorem inside {div : Div}
    (hmargin : ∀ margin, div = .block margin → margin = Em.format options.indent.toBinary64)
    (h : KeepsStyle options (div :: around) marks) :
    KeepsStyle options around [.inside div marks] := by
  intro s hs
  have hdepth : blocksIn (div :: around) = blocksIn around + div.blocks := Nat.add_comm _ _
  unfold KeepsStyle at h
  rw [hdepth] at h
  exact hs.below (.container hmargin (h _ fun _ hbox => absurd hbox List.not_mem_nil))
    (Sheet.boxes_contain ..)

end KeepsStyle

end Drawing

end Html

/-! ## Trees -/

section Trees

variable {setup : Setup}

mutual

/-- What stands in an environment is set as the options say, whatever it is. -/
theorem Node.keepsStyle : ∀ (node : Node α) (around : List Div),
    KeepsStyle setup.options around (node.marks setup)
  | .algorithmic _ children, around => by
    rw [Node.marks]
    exact .inside nofun (Node.keepsStyle_all children _)
  | .block _ children, around => by
    rw [Node.marks]
    refine .inside ?_ (Node.keepsStyle_all children _)
    rintro margin ⟨⟩
    rfl
  | .command .., around => .start
  | .call .., around | .comment .., around => .join
  | .conditional _ branches hasElse elseBody, around => by
    have helse := Node.keepsStyle_body elseBody around
    rw [Node.marks]
    refine (Branch.keepsStyle_all branches around).append (.append ?_ .start)
    split
    · exact KeepsStyle.start.append helse
    · exact .nil
  | .loop _ keyword cond body, around => by
    rw [Node.marks]
    exact KeepsStyle.start.append ((Node.keepsStyle_body body around).append .start)
  | .function _ kind name params body, around => by
    rw [Node.marks]
    exact KeepsStyle.start.append ((Node.keepsStyle_body body around).append .start)
  | .bare _, _ | .root .., _ | .algorithm .., _ | .text _, _ | .caption .., _ | .branch _, _
  | .leaf .., _ => .nil

theorem Node.keepsStyle_all : ∀ (nodes : List (Node α)) (around : List Div),
    KeepsStyle setup.options around (Node.marksAll setup nodes)
  | [], _ => .nil
  | node :: rest, around => (Node.keepsStyle node around).append (Node.keepsStyle_all rest around)

theorem Branch.keepsStyle_all : ∀ (arms : List (Branch α)) (around : List Div),
    KeepsStyle setup.options around (Branch.marksAll setup arms)
  | [], _ => .nil
  | .mk _ cond body :: rest, around => by
    rw [Branch.marksAll]
    exact KeepsStyle.start.append
      ((Node.keepsStyle_body body around).append (Branch.keepsStyle_all rest around))

theorem Node.keepsStyle_body : ∀ (body : Option (Node α)) (around : List Div),
    KeepsStyle setup.options around (Node.marksBody setup body)
  | none, _ => .nil
  | some node, around => Node.keepsStyle node around

end

theorem Node.keepsStyle_environments (nodes : List (Node α)) (around : List Div)
    (captions : ℕ) :
    KeepsStyle setup.options around (Node.environmentsMarks setup captions nodes) := by
  induction nodes generalizing captions with
  | nil => exact .nil
  | cons node rest ih =>
      refine KeepsStyle.append ?_ (ih _)
      cases node with
      | algorithm _ parts =>
          refine .inside nofun (.append ?_ (Node.keepsStyle_all parts _))
          unfold captionMarks
          cases lastCaption? parts with
          | none => exact .nil
          | some words => exact .alone
      | _ => exact Node.keepsStyle _ around

/-- The layout of a document is set as the options say. -/
theorem Node.layout_styled (document : Node α) :
    (Box.container .document (document.layout setup)).Styled setup.options [] :=
  .container nofun
    (Node.keepsStyle_environments document.children [.document] 0 {}
      fun _ hbox => absurd hbox List.not_mem_nil)

end Trees

/-! ## Lengths of boxes -/

namespace Html

theorem Box.mem_fragmentsAll {f : Fragment} {content : List Box} :
    f ∈ fragmentsAll content ↔ ∃ box ∈ content, f ∈ box.fragments := by
  induction content with
  | nil => simp [fragmentsAll]
  | cons box rest ih => simp [fragmentsAll, ih]

theorem Box.mem_linesAll {line : PrintedLine} {around : List Div} {content : List Box} :
    line ∈ linesAll around content ↔ ∃ box ∈ content, line ∈ box.lines around := by
  induction content with
  | nil => simp [linesAll]
  | cons box rest ih => simp [linesAll, ih]

theorem mem_merged {f : Fragment} (hf : ¬f.IsText) {fragments : List Fragment} :
    f ∈ merged fragments ↔ f ∈ fragments := by
  have hattach : ∀ g rest, f ∈ attach g rest ↔ f ∈ g :: rest := by
    intro g rest
    unfold attach
    split
    · -- none of the pieces of text is the fragment
      have hne : ∀ s, f ≠ .text s := by
        rintro s rfl
        exact hf trivial
      simp [hne]
    · rfl
  induction fragments with
  | nil => rfl
  | cons g rest ih =>
      rw [merged, hattach, List.mem_cons, List.mem_cons]
      exact or_congr_right ih

theorem Fragment.not_isText_of_mem {f : Fragment} {length : String}
    (h : length ∈ f.styleLengths) : ¬f.IsText := by
  cases f with
  | text => cases h
  | _ => exact id

/-- The offset that the number of a line has. -/
def PrintedLine.offset (options : Options) (line : PrintedLine) : String :=
  Em.format (lineNumberOffset options.indent.toBinary64 line.blocks)

/-- The lengths in some fragments are the indent and the offsets of the code lines, if these are
numbered. -/
structure HasLengths (options : Options) (lines : List PrintedLine)
    (fragments : List Fragment) : Prop where
  lengths : ∀ f ∈ fragments, ∀ length ∈ f.styleLengths,
    length = Em.format options.indent.toBinary64 ∨
      options.lineNumber.isTrue = true ∧ ∃ line ∈ lines, line.isCode = true ∧
        ∃ number punc, f = .lineNumber (line.offset options) number punc
  offsets : options.lineNumber.isTrue = true → ∀ line ∈ lines, line.isCode = true →
    ∃ number punc, Fragment.lineNumber (line.offset options) number punc ∈ fragments

variable {options : Options} {around : List Div}

theorem Row.Styled.hasLengths {row : Row} (h : row.Styled options around) :
    HasLengths options [row.printed around] row.fragments := by
  have hoffset := h.offset
  constructor
  · intro f hf length hlength
    rw [Row.fragments_eq, List.mem_cons, List.mem_append, List.mem_append, List.mem_singleton] at hf
    rcases hf with rfl | hnumber | hheld | rfl
    · left
      cases hline : row.line with
      | code =>
          rw [hline] at hlength
          cases hlength
      | hanging indent =>
          rw [hline] at hlength
          obtain rfl : length = indent := by simpa [Fragment.styleLengths] using hlength
          exact h.hanging _ hline
    · right
      obtain ⟨n, hn, rfl⟩ := List.mem_map.1 hnumber
      rw [Option.mem_toList.1 hn, Option.map_some] at hoffset
      split at hoffset
      next hcode =>
        injection hoffset with hoffset
        exact ⟨hcode.1, _, List.mem_singleton_self _, decide_eq_true hcode.2, n.number, n.punc,
          congrArg (fun offset => Fragment.lineNumber offset n.number n.punc) hoffset⟩
      next => cases hoffset
    · have hinline := row.isInline_held f hheld
      cases f with
      | openDiv => exact hinline.elim
      | openLine => exact hinline.elim
      | lineNumber => exact hinline.elim
      | _ => cases hlength
    · cases hlength
  · intro hnumbered line hmem hcode
    obtain rfl := List.mem_singleton.1 hmem
    rw [if_pos ⟨hnumbered, of_decide_eq_true hcode⟩, Option.map_eq_some_iff] at hoffset
    obtain ⟨n, hn, hoffset⟩ := hoffset
    refine ⟨n.number, n.punc, ?_⟩
    rw [Row.fragments_eq, hn]
    refine List.mem_cons_of_mem _ (List.mem_append_left _ ?_)
    exact List.mem_singleton.2
      (congrArg (fun offset => Fragment.lineNumber offset n.number n.punc) hoffset.symm)

theorem Box.Styled.hasLengths {box : Box} (h : box.Styled options around) :
    HasLengths options (box.lines around) box.fragments := by
  induction h with
  | line hrow => exact hrow.hasLengths
  | @container around div content hmargin _ ih =>
      rw [Box.lines, Box.fragments]
      constructor
      · intro f hf length hlength
        rw [List.mem_cons, List.mem_append, List.mem_singleton, mem_fragmentsAll] at hf
        rcases hf with rfl | ⟨box, hbox, hf⟩ | rfl
        · left
          cases div with
          | block margin =>
              obtain rfl := List.mem_singleton.1 hlength
              exact hmargin _ rfl
          | _ => cases hlength
        · refine ((ih box hbox).lengths f hf length hlength).imp_right ?_
          rintro ⟨hnumbered, line, hline, hrest⟩
          exact ⟨hnumbered, line, mem_linesAll.2 ⟨box, hbox, hline⟩, hrest⟩
        · cases hlength
      · intro hnumbered line hline hcode
        obtain ⟨box, hbox, hline⟩ := mem_linesAll.1 hline
        obtain ⟨number, punc, hf⟩ := (ih box hbox).offsets hnumbered line hline hcode
        refine ⟨number, punc, List.mem_cons_of_mem _ (List.mem_append_left _ ?_)⟩
        exact mem_fragmentsAll.2 ⟨box, hbox, hf⟩

/-- Joined text changes no length. -/
theorem HasLengths.merged {lines : List PrintedLine} {fragments : List Fragment}
    (h : HasLengths options lines fragments) : HasLengths options lines (merged fragments) where
  lengths f hf length hlength :=
    h.lengths f ((mem_merged (Fragment.not_isText_of_mem hlength)).1 hf) length hlength
  offsets hnumbered line hline hcode := by
    obtain ⟨number, punc, hf⟩ := h.offsets hnumbered line hline hcode
    exact ⟨number, punc, (mem_merged id).2 hf⟩

end Html

/-! ## Sources -/

/-- Every length in the output of a source is followed by its unit, and is written as a decimal
unless it is the offset of a line number that is written as `inf`. All lengths are decimals
exactly if lines are not numbered, or the offset of each code line, computed exactly from the
number of blocks around the line, is below the numbers that are rounded to no finite double. -/
theorem styleLengths_of_parse {source : String} {tree : Node Source.Location}
    (hparse : parse source = .ok tree) {setup : Setup}
    (hfault : (tree.rendering setup).fault = none) :
    let fragments := (tree.rendering setup).page.fragments.toList
    (∀ f ∈ fragments, ∀ length ∈ f.styleLengths,
      (∃ front back, f.markup = front ++ (length ++ "em;") ++ back) ∧
      (IsDecimal length ∨ ∃ number punc, f = .lineNumber "inf" number punc)) ∧
    ((∀ length ∈ styleLengths fragments, IsDecimal length) ↔
      (setup.options.lineNumber.isTrue = true → ∀ line ∈ linesIn [] fragments,
        line.isCode = true → OffsetFits setup.options.indent line.blocks)) := by
  intro fragments
  have hfragments : fragments = (Box.container .document (tree.layout setup)).merge.fragments :=
    (normal_of_parse hparse).rendering_fragments setup hfault
  have hstyled : HasLengths setup.options (linesIn [] fragments) fragments := by
    have hlayout : (Box.container .document (tree.layout setup)).Styled setup.options [] :=
      tree.layout_styled
    have h := hlayout.hasLengths.merged
    rwa [Box.merged_fragments, ← hfragments, ← linesIn_merge, ← hfragments] at h
  have hindent := isDecimal_indent setup.options.indent
  clear_value fragments
  refine ⟨fun f hf length hlength => ⟨f.markup_of_mem_styleLengths hlength, ?_⟩, ?_, ?_⟩
  · rcases hstyled.lengths f hf length hlength with rfl | ⟨-, line, -, -, number, punc, rfl⟩
    · exact .inl hindent
    · obtain rfl := List.mem_singleton.1 hlength
      by_cases hfits : OffsetFits setup.options.indent line.blocks
      · exact .inl (isDecimal_offset hfits)
      · refine .inr ⟨number, punc, ?_⟩
        rw [PrintedLine.offset, offset_eq_inf hfits]
  · intro hdecimal hnumbered line hline hcode
    by_contra hfits
    obtain ⟨number, punc, hf⟩ := hstyled.offsets hnumbered line hline hcode
    rw [PrintedLine.offset, offset_eq_inf hfits] at hf
    exact not_isDecimal_inf (hdecimal _ (List.mem_flatMap.2 ⟨_, hf, List.mem_singleton_self _⟩))
  · intro hfits length hlength
    obtain ⟨f, hf, hlength⟩ := List.mem_flatMap.1 hlength
    rcases hstyled.lengths f hf length hlength with
      rfl | ⟨hnumbered, line, hline, hcode, number, punc, rfl⟩
    · exact hindent
    · obtain rfl := List.mem_singleton.1 hlength
      exact isDecimal_offset (hfits hnumbered line hline hcode)

/-- Three blocks of the default indent are far from any bound. -/
theorem styleLengths_nested_loops :
    let source := "\\begin{algorithmic}\\WHILE{a}\\WHILE{b}\\STATE c\\ENDWHILE\\ENDWHILE" ++
      "\\end{algorithmic}"
    let setup : Setup := ⟨{ Options.default with lineNumber := .bool true }, delimited⟩
    ∃ tree, parse source = .ok tree ∧
      (styleLengths (tree.rendering setup).page.fragments.toList) =
        ["1.4", "0", "1.4", "1.7", "1.4", "3.4", "1.7", "0"] ∧
      ∀ length ∈ styleLengths (tree.rendering setup).page.fragments.toList, IsDecimal length := by
  intro source setup
  have hrun : (parse source).toOption.any (fun tree =>
      let fragments := (tree.rendering setup).page.fragments.toList
      (tree.rendering setup).fault.isNone &&
        styleLengths fragments = ["1.4", "0", "1.4", "1.7", "1.4", "3.4", "1.7", "0"] &&
        (linesIn [] fragments).all fun line => line.blocks < 4) = true := by
    have htext : source.toList = _ := toList_append_ofList
    rw [parse_of_toList htext]
    decide +kernel
  have hfits : ∀ depth < 4, OffsetFits setup.options.indent depth := by decide +kernel
  cases htree : parse source with
  | error fault =>
      rw [htree] at hrun
      cases hrun
  | ok tree =>
      rw [htree] at hrun
      simp only [Except.toOption, Option.any_some, Bool.and_eq_true, decide_eq_true_eq,
        List.all_eq_true] at hrun
      obtain ⟨⟨hfault, hlengths⟩, hblocks⟩ := hrun
      obtain ⟨-, hdecimal⟩ := styleLengths_of_parse htree (Option.isNone_iff_eq_none.1 hfault)
      exact ⟨tree, rfl, hlengths, hdecimal.2 fun _ line hline _ => hfits _ (hblocks line hline)⟩

/-- Not every offset is a decimal: two blocks of 1e308 em are more than the largest finite double,
although the indent itself is accepted. -/
theorem not_all_styleLengths_decimal :
    ¬∀ (entries : List (String × Value)) (options : Options) (source : String)
        (tree : Node Source.Location), Options.ofMapping entries = .ok options →
      parse source = .ok tree → (tree.rendering ⟨options, delimited⟩).fault = none →
        ∀ length ∈ styleLengths (tree.rendering ⟨options, delimited⟩).page.fragments.toList,
          IsDecimal length := by
  intro h
  let entries := [("indentSize", Value.text "1e308em"), ("lineNumber", Value.bool true)]
  let source := "\\begin{algorithmic}\\WHILE{a}\\WHILE{b}\\STATE c\\ENDWHILE\\ENDWHILE" ++
    "\\end{algorithmic}"
  have hrun : (match Options.ofMapping entries, parse source with
      | .ok options, .ok tree =>
        (tree.rendering ⟨options, delimited⟩).fault.isNone &&
          (styleLengths (tree.rendering ⟨options, delimited⟩).page.fragments.toList).contains "inf"
      | _, _ => false) = true := by
    have htext : source.toList = _ := toList_append_ofList
    rw [parse_of_toList htext]
    decide +kernel
  have h := h entries
  generalize Options.ofMapping entries = checked at h hrun
  cases htree : parse source with
  | error fault =>
      rw [htree] at hrun
      cases checked <;> cases hrun
  | ok tree =>
      rw [htree] at hrun
      cases checked with
      | error fault => cases hrun
      | ok options =>
          rw [Bool.and_eq_true, List.contains_iff_mem] at hrun
          exact not_isDecimal_inf (h options source tree rfl htree
            (Option.isNone_iff_eq_none.1 hrun.1) "inf" hrun.2)

end AlgoBox
