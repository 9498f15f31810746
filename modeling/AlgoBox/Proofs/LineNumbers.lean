import AlgoBox.Proofs.Drawing
import AlgoBox.Proofs.Lines
import AlgoBox.Proofs.RenderTotal
import Mathlib.Algebra.GroupWithZero.Nat

/-!
# Code lines and their numbers

How many code lines an algorithmic environment is rendered to can be told from its
tree (`environmentCodeLines`): a comment or a call counts only at the beginning of a
block, where there is no line that it could join. If lines are numbered, these lines
carry the numbers from one on, and no others carry any (`codeLines_of_parse`).

Whether a line is open depends on the statement before, so counting goes along the
sheet: `Extends` says which lines a part of a tree adds to one, and the count of the
sheet is the number of lines added to it.
-/

namespace AlgoBox

open Html Grammar

variable {α : Type}

/-! ## Code lines of a tree -/

/-- The statement joins the open line, if there is one. -/
def Node.joins : Node α → Bool
  | .call .. | .comment .. => true
  | _ => false

mutual

/-- The number of code lines of a statement or block. Calls and comments are counted
by the block that they begin. -/
def Node.codeLines : Node α → Nat
  | .command .. => 1
  | .block _ children =>
    (if children.head?.any Node.joins then 1 else 0) + Node.codeLinesAll children
  | .conditional _ branches hasElse elseBody =>
    branches.length + (if hasElse then 1 else 0) + 1 +
      (Branch.codeLinesAll branches + Node.codeLinesBody elseBody)
  | .loop _ _ _ body | .function _ _ _ _ body => 2 + Node.codeLinesBody body
  | .bare _ | .root .. | .algorithm .. | .algorithmic .. | .text _ | .caption .. | .comment ..
  | .call .. | .branch _ | .leaf .. => 0

/-- The number of code lines of some statements behind another one. -/
def Node.codeLinesAll : List (Node α) → Nat
  | [] => 0
  | node :: rest => node.codeLines + Node.codeLinesAll rest

/-- The number of code lines in the bodies of some arms. -/
def Branch.codeLinesAll : List (Branch α) → Nat
  | [] => 0
  | .mk _ _ body :: rest => Node.codeLinesBody body + Branch.codeLinesAll rest

/-- The number of code lines of a body. -/
def Node.codeLinesBody : Option (Node α) → Nat
  | none => 0
  | some node => node.codeLines

end

/-- The number of code lines of an algorithmic environment: those of its blocks. -/
def environmentCodeLines (sections : List (Node α)) : Nat :=
  (sections.map fun
    | node@(.block ..) => node.codeLines
    | _ => 0).sum

/-- The names of the preconditions of an algorithmic environment. -/
def preconditions (sections : List (Node α)) : List String :=
  sections.filterMap fun
    | .command _ name _ => some name
    | _ => none

mutual

/-- The sections of each algorithmic environment of a tree. -/
def Node.environments : Node α → List (List (Node α))
  | .algorithmic _ children => [children]
  | .root _ children | .algorithm _ children => Node.environmentsAll children
  | _ => []

/-- The sections of each algorithmic environment of some trees. -/
def Node.environmentsAll : List (Node α) → List (List (Node α))
  | [] => []
  | node :: rest => node.environments ++ Node.environmentsAll rest

end

/-! ## Code lines of an output -/

namespace Html

/-- The number of blocks among some containers. -/
def blocksIn (around : List Div) : Nat := (around.map Div.blocks).sum

/-- The number of blocks around a line. -/
def PrintedLine.blocks (line : PrintedLine) : Nat := blocksIn line.around

/-- The line is a code line. -/
def PrintedLine.isCode (line : PrintedLine) : Bool := line.line = .code

/-- The line stands in an algorithmic environment. -/
def PrintedLine.InEnvironment (line : PrintedLine) : Prop :=
  ∃ numbered, Div.algorithmic numbered ∈ line.around

/-- The line is a caption without a number. -/
def PrintedLine.IsCaption (line : PrintedLine) : Prop :=
  line.line ≠ .code ∧ line.numbers = [] ∧
    ∃ k : Nat, line.keywords.head? = some ("Algorithm " ++ toString k)

/-- The code lines in a sequence of fragments. -/
def codeLinesIn (fragments : List Fragment) : List PrintedLine :=
  (linesIn [] fragments).filter PrintedLine.isCode

/-- The lines in a sequence of fragments that are no code lines. -/
def otherLinesIn (fragments : List Fragment) : List PrintedLine :=
  (linesIn [] fragments).filter (!·.isCode)

/-- An algorithmic environment is rendered to these fragments: it has as many code
lines as its blocks ask for. If lines are numbered, its code lines carry the numbers
from one on, each as far to the left as the indent with a gap of 0.3 em for every block
around it but the innermost, and otherwise none. Its other lines are those of its
preconditions, in order, and carry no number. -/
structure NumbersLines (options : Options) (sections : List (Node α))
    (fragments : List Fragment) : Prop where
  count : (codeLinesIn fragments).length = environmentCodeLines sections
  numbers : ∀ (i : Nat) (line : PrintedLine), (codeLinesIn fragments)[i]? = some line →
    0 < line.blocks ∧ line.numbers =
      if options.lineNumber.isTrue then
        [⟨Em.format (.scale (line.blocks - 1)
            (options.indent.toBinary64.add (.ofDecimal false 3 (-1)))), i + 1,
          escapedValue options.lineNumberPunc⟩]
      else []
  others : (otherLinesIn fragments).map (fun line => (line.keywords.head?, line.numbers)) =
    (preconditions sections).map fun name => (commandLabel? name, [])

/-! ## Lines added to a sheet -/

/-- What of a code line is counted: the blocks around it and its numbers. -/
def Box.codeHeads (around : List Div) (content : List Box) : List (Nat × List LineNumber) :=
  ((Box.linesAll around content).filter PrintedLine.isCode).map
    fun line => (line.blocks, line.numbers)

/-- What of the other lines is counted: the first keyword and the numbers. -/
def Box.otherHeads (around : List Div) (content : List Box) :
    List (Option String × List LineNumber) :=
  ((Box.linesAll around content).filter (!·.isCode)).map
    fun line => (line.keywords.head?, line.numbers)

/-- Code lines inside these numbers of blocks, behind a number of others. -/
def numberedFrom (options : Options) : Nat → List Nat → List (Nat × List LineNumber)
  | _, [] => []
  | count, depth :: rest =>
    (depth, if options.lineNumber.isTrue then [lineNumberAt options depth (count + 1)] else []) ::
      numberedFrom options (count + 1) rest

theorem numberedFrom_append (options : Options) (count : Nat) (l m : List Nat) :
    numberedFrom options count (l ++ m) =
      numberedFrom options count l ++ numberedFrom options (count + l.length) m := by
  induction l generalizing count with
  | nil => rfl
  | cons depth rest ih =>
      rw [List.cons_append, numberedFrom, numberedFrom, ih, List.cons_append, List.length_cons]
      congr 3
      omega

/-- A sheet inside some containers goes on with a number of code lines, numbered
behind those before, with other lines with these first keywords, and with no
algorithmic environment. -/
structure Extends (options : Options) (around : List Div) (s s' : Sheet) (lines : Nat)
    (labels : List (Option String)) : Prop where
  code : ∃ depths : List Nat, depths.length = lines ∧ (∀ depth ∈ depths, 0 < depth) ∧
    Box.codeHeads around s'.boxes =
      Box.codeHeads around s.boxes ++ numberedFrom options s.count depths
  others : Box.otherHeads around s'.boxes =
    Box.otherHeads around s.boxes ++ labels.map (·, [])
  count : s'.count = s.count + lines
  environments : Box.environmentsAll s'.boxes = Box.environmentsAll s.boxes

variable {options : Options} {around : List Div} {s s' s'' : Sheet} {lines lines' : Nat}
  {labels labels' : List (Option String)}

theorem Extends.refl (s : Sheet) : Extends options around s s 0 [] where
  code := ⟨[], rfl, by simp, (List.append_nil _).symm⟩
  others := (List.append_nil _).symm
  count := rfl
  environments := rfl

theorem Extends.trans (h : Extends options around s s' lines labels)
    (h' : Extends options around s' s'' lines' labels') :
    Extends options around s s'' (lines + lines') (labels ++ labels') where
  code := by
    obtain ⟨depths, hlength, hpos, hcode⟩ := h.code
    obtain ⟨depths', hlength', hpos', hcode'⟩ := h'.code
    refine ⟨depths ++ depths', by simp [hlength, hlength'], ?_, ?_⟩
    · intro depth hdepth
      rcases List.mem_append.1 hdepth with hdepth | hdepth
      · exact hpos depth hdepth
      · exact hpos' depth hdepth
    · -- the second part is numbered behind the first, as the count of `s'` says
      rw [hcode', hcode, h.count, numberedFrom_append, hlength, List.append_assoc]
  others := by rw [h'.others, h.others, List.map_append, List.append_assoc]
  count := by rw [h'.count, h.count, Nat.add_assoc]
  environments := h'.environments.trans h.environments

theorem Box.codeHeads_append (around : List Div) (l m : List Box) :
    codeHeads around (l ++ m) = codeHeads around l ++ codeHeads around m := by
  simp only [codeHeads, linesAll_append, List.filter_append, List.map_append]

theorem Box.otherHeads_append (around : List Div) (l m : List Box) :
    otherHeads around (l ++ m) = otherHeads around l ++ otherHeads around m := by
  simp only [otherHeads, linesAll_append, List.filter_append, List.map_append]

/-- The first keyword among some pieces. -/
def Inline.keyword? (content : List Inline) : Option String :=
  ((fragmentsAll content).filterMap Fragment.keyword?).head?

section Lines

variable {row : Row}

theorem Box.heads_code (h : row.line = .code) :
    codeHeads around [.line row] = [(blocksIn around, row.number.toList)] ∧
      otherHeads around [.line row] = [] := by
  have hcode : (row.printed around).isCode = true := decide_eq_true h
  have hlines : linesAll around [.line row] = [row.printed around] := rfl
  unfold codeHeads otherHeads
  rw [hlines]
  refine ⟨?_, ?_⟩
  · simp only [List.filter_cons, hcode, if_true]
    rfl
  · simp [hcode]

theorem Box.heads_other (h : row.line ≠ .code) :
    codeHeads around [.line row] = [] ∧
      otherHeads around [.line row] = [(Inline.keyword? row.content, row.number.toList)] := by
  have hcode : (row.printed around).isCode = false := decide_eq_false h
  have hlines : linesAll around [.line row] = [row.printed around] := rfl
  unfold codeHeads otherHeads
  rw [hlines]
  refine ⟨?_, ?_⟩
  · simp [hcode]
  · simp only [List.filter_cons, hcode, Bool.not_false, if_true]
    rfl

end Lines

theorem rowAt_inside {depth : Nat} (hdepth : 0 < depth) (options : Options) (count : Nat)
    (content : List Inline) :
    rowAt options depth count content =
      ⟨.code,
        if options.lineNumber.isTrue then some (lineNumberAt options depth (count + 1)) else none,
        content⟩ :=
  if_pos hdepth

/-- What stands below the boxes of a sheet is what is added to it. -/
theorem Extends.of_boxes {content : List Box} {depths : List Nat}
    (hboxes : s'.boxes = s.boxes ++ content) (hpos : ∀ depth ∈ depths, 0 < depth)
    (hcode : Box.codeHeads around content = numberedFrom options s.count depths)
    (hothers : Box.otherHeads around content = labels.map (·, []))
    (hcount : s'.count = s.count + depths.length) (hnone : Box.environmentsAll content = []) :
    Extends options around s s' depths.length labels where
  code := ⟨depths, rfl, hpos, by rw [hboxes, Box.codeHeads_append, hcode]⟩
  others := by rw [hboxes, Box.otherHeads_append, hothers]
  count := hcount
  environments := by rw [hboxes, Box.environmentsAll_append, hnone, List.append_nil]

/-- A row that starts inside blocks is the next code line. -/
theorem Extends.start (hdepth : 0 < blocksIn around) (content : List Inline) :
    Extends options around s (s.start options (blocksIn around) content) 1 [] := by
  obtain ⟨hcode, hothers⟩ := @Box.heads_code around
    (rowAt options (blocksIn around) s.count content) (congrArg Row.line (rowAt_inside hdepth ..))
  refine @Extends.of_boxes options around s _ [] _ [blocksIn around] rfl ?_ ?_ hothers
    (if_pos hdepth) rfl
  · intro depth hmem
    rwa [List.mem_singleton.1 hmem]
  · refine hcode.trans ?_
    rw [rowAt_inside hdepth, numberedFrom]
    dsimp only
    split
    · rfl
    · rfl

/-- A row that starts outside all blocks is no code line. -/
theorem Extends.start_outside (content : List Inline) :
    Extends options around s (s.start options 0 content) 0 [Inline.keyword? content] := by
  obtain ⟨hcode, hothers⟩ := @Box.heads_other around
    ⟨.hanging (Em.format options.indent.toBinary64), none, content⟩ (fun h => by cases h)
  exact @Extends.of_boxes options around s _ [Inline.keyword? content] _ [] rfl
    (fun _ h => absurd h List.not_mem_nil) hcode hothers rfl rfl

/-- The open line is a code line. -/
def Sheet.InCode (s : Sheet) : Prop := ∃ row, s.row = some row ∧ row.line = .code

/-- More content in a code line makes no other line of it. -/
theorem Extends.add (h : s.InCode) (content : List Inline) :
    Extends options around s (s.add content) 0 [] := by
  obtain ⟨row, hrow, hcode⟩ := h
  have hboxes : s.boxes = s.above ++ [.line row] := by
    unfold Sheet.boxes
    rw [hrow]
    rfl
  have hadd : (s.add content).boxes = s.above ++ [.line (row.add content)] := by
    unfold Sheet.boxes Sheet.add
    rw [hrow]
    rfl
  have hline : (row.add content).line = .code := hcode
  refine ⟨⟨[], rfl, by simp, ?_⟩, ?_, rfl, ?_⟩
  · rw [hboxes, hadd, Box.codeHeads_append, Box.codeHeads_append, (Box.heads_code hcode).1,
      (Box.heads_code hline).1]
    exact (List.append_nil _).symm
  · rw [hboxes, hadd, Box.otherHeads_append, Box.otherHeads_append, (Box.heads_code hcode).2,
      (Box.heads_code hline).2]
    exact (List.append_nil _).symm
  · rw [hboxes, hadd, Box.environmentsAll_append, Box.environmentsAll_append]
    rfl

theorem Sheet.InCode.add (h : s.InCode) (content : List Inline) : (s.add content).InCode := by
  obtain ⟨row, hrow, hcode⟩ := h
  exact ⟨row.add content, by rw [Sheet.add, hrow]; rfl, hcode⟩

/-- A block adds what is added to a sheet of its own. -/
theorem Extends.contain {margin : String} {inner : Sheet}
    (h : Extends options (.block margin :: around) { count := s.count } inner lines []) :
    Extends options around s (s.contain (.block margin) inner) lines [] := by
  obtain ⟨⟨depths, rfl, hpos, hcode⟩, hothers, hcount, hnone⟩ := h
  have hlines : Box.linesAll around [.container (.block margin) inner.boxes] =
      Box.linesAll (.block margin :: around) inner.boxes :=
    List.append_nil _
  refine Extends.of_boxes (Sheet.boxes_contain s _ inner) hpos ?_ ?_ hcount ?_
  · unfold Box.codeHeads
    rw [hlines]
    exact hcode
  · unfold Box.otherHeads
    rw [hlines]
    exact hothers
  · exact (List.append_nil _).trans hnone

/-- Marks add a number of code lines to every sheet inside these containers. -/
def Adds (options : Options) (around : List Div) (marks : List Mark) (lines : Nat) : Prop :=
  ∀ s : Sheet, Extends options around s (s.writeAll options (blocksIn around) marks) lines []

namespace Adds

variable {marks marks' : List Mark}

theorem nil : Adds options around [] 0 := Extends.refl

theorem append (h : Adds options around marks lines) (h' : Adds options around marks' lines') :
    Adds options around (marks ++ marks') (lines + lines') := by
  intro s
  rw [Sheet.writeAll_append]
  exact (h s).trans (h' _)

theorem of_eq (h : Adds options around marks lines) (heq : lines = lines') :
    Adds options around marks lines' := heq ▸ h

theorem start (hdepth : 0 < blocksIn around) (content : List Inline) :
    Adds options around [.start content] 1 := by
  intro s
  exact Extends.start hdepth content

theorem cons (hdepth : 0 < blocksIn around) (content : List Inline)
    (h : Adds options around marks lines) :
    Adds options around (.start content :: marks) (1 + lines) :=
  (start hdepth content).append h

/-- A line at both ends. -/
theorem enclosed (hdepth : 0 < blocksIn around) (first last : List Inline)
    (h : Adds options around marks lines) :
    Adds options around (.start first :: (marks ++ [.start last])) (2 + lines) := by
  refine (cons hdepth first (h.append (start hdepth last))).of_eq ?_
  omega

theorem block {margin : String}
    (h : ∀ count, Extends options (.block margin :: around) { count := count }
      (Sheet.writeAll options (blocksIn (.block margin :: around)) { count := count } marks)
      lines []) :
    Adds options around [.inside (.block margin) marks] lines := by
  intro s
  have hdepth : blocksIn (.block margin :: around) = blocksIn around + 1 := Nat.add_comm 1 _
  rw [hdepth] at h
  exact (h s.count).contain

end Adds

end Html

/-! ## Statements -/

section Statements

variable {form : Form} {setup : Setup} {around : List Div}

/-- A statement that does not join a line leaves a line open. -/
theorem Statement.inCode {node : Node α} (h : Statement form node) (hjoins : node.joins = false)
    {depth : Nat} (hdepth : 0 < depth) (s : Sheet) :
    (s.writeAll setup.options depth (node.marks setup)).InCode := by
  have hlast : ∀ front content, Sheet.InCode
      (s.writeAll setup.options depth (front ++ [.start content])) := by
    intro front content
    rw [Sheet.writeAll_append]
    refine ⟨_, rfl, ?_⟩
    rw [rowAt_inside hdepth]
  cases h with
  | comment => cases hjoins
  | call => cases hjoins
  | command => exact hlast [] _
  | conditional =>
      rw [Node.marks, ← List.append_assoc]
      exact hlast _ _
  | loop =>
      rw [Node.marks, ← List.cons_append]
      exact hlast _ _
  | function =>
      rw [Node.marks, ← List.cons_append]
      exact hlast _ _

theorem Statement.exists_join {node : Node α} (h : Statement form node)
    (hjoins : node.joins = true) :
    ∃ content, node.marks setup = [.join content] ∧ node.codeLines = 0 := by
  cases h with
  | comment => exact ⟨_, rfl, rfl⟩
  | call => exact ⟨_, rfl, rfl⟩
  | _ => cases hjoins

/-- Statements behind another one. -/
theorem extends_statements {nodes : List (Node α)} (hnodes : ∀ node ∈ nodes, Statement form node)
    (h : ∀ node ∈ nodes, node.joins = false →
      Adds setup.options around (node.marks setup) node.codeLines)
    (hdepth : 0 < blocksIn around) {s : Sheet} (hs : s.InCode) :
    Extends setup.options around s
      (s.writeAll setup.options (blocksIn around) (Node.marksAll setup nodes))
      (Node.codeLinesAll nodes) [] := by
  induction nodes generalizing s with
  | nil => exact .refl s
  | cons node rest ih =>
      obtain ⟨hnode, hrest⟩ := List.forall_mem_cons.1 hnodes
      obtain ⟨hadds, hmore⟩ := List.forall_mem_cons.1 h
      rw [Node.marksAll, Sheet.writeAll_append, Node.codeLinesAll]
      cases hjoins : node.joins with
      | false => exact (hadds hjoins s).trans (ih hrest hmore (hnode.inCode hjoins hdepth s))
      | true =>
          obtain ⟨content, hmarks, hlines⟩ := hnode.exists_join hjoins
          -- the statement before has left its line open
          have hjoin : s.writeAll setup.options (blocksIn around) [.join content] =
              s.add content := by
            obtain ⟨row, hrow, -⟩ := hs
            show s.join _ _ _ = _
            rw [Sheet.join, hrow]
            rfl
          rw [hmarks, hlines, hjoin]
          exact (Extends.add hs content).trans (ih hrest hmore (hs.add content))

/-- The statements of a block: the first one starts a line in any case. -/
theorem extends_block {nodes : List (Node α)} (hnodes : ∀ node ∈ nodes, Statement form node)
    (h : ∀ node ∈ nodes, node.joins = false →
      Adds setup.options around (node.marks setup) node.codeLines)
    (hdepth : 0 < blocksIn around) (count : Nat) :
    Extends setup.options around { count := count }
      (Sheet.writeAll setup.options (blocksIn around) { count := count }
        (Node.marksAll setup nodes))
      ((if nodes.head?.any Node.joins then 1 else 0) + Node.codeLinesAll nodes) [] := by
  cases nodes with
  | nil => exact .refl _
  | cons node rest =>
      obtain ⟨hnode, hrest⟩ := List.forall_mem_cons.1 hnodes
      obtain ⟨hadds, hmore⟩ := List.forall_mem_cons.1 h
      rw [Node.marksAll, Sheet.writeAll_append, Node.codeLinesAll, ← Nat.add_assoc]
      rw [List.head?_cons, Option.any_some]
      have hrest := fun {s : Sheet} (hs : s.InCode) => extends_statements hrest hmore hdepth hs
      cases hjoins : node.joins with
      | false =>
          have hfirst := hadds hjoins { count := count }
          rw [if_neg Bool.false_ne_true, Nat.zero_add]
          exact hfirst.trans (hrest (hnode.inCode hjoins hdepth _))
      | true =>
          obtain ⟨content, hmarks, hlines⟩ := hnode.exists_join hjoins
          rw [hmarks, hlines, if_pos rfl]
          -- nothing is open at the beginning of a block
          exact (Extends.start hdepth content).trans
            (hrest ⟨_, rfl, congrArg Row.line (rowAt_inside hdepth _ _ _)⟩)

/-- The body of an arm. -/
def Branch.body : Branch α → Option (Node α)
  | .mk _ _ body => body

theorem Adds.body {body : Option (Node α)}
    (h : ∀ block ∈ body, Adds setup.options around (block.marks setup) block.codeLines) :
    Adds setup.options around (Node.marksBody setup body) (Node.codeLinesBody body) := by
  cases body with
  | none => exact .nil
  | some block => exact h block rfl

theorem Adds.arms {arms : List (Branch α)}
    (h : ∀ arm ∈ arms, ∀ rest lines,
      Adds setup.options around (Branch.marksAll setup rest) lines →
      Adds setup.options around (Branch.marksAll setup (arm :: rest))
        (1 + (Node.codeLinesBody arm.body + lines))) :
    Adds setup.options around (Branch.marksAll setup arms)
      (arms.length + Branch.codeLinesAll arms) := by
  induction arms with
  | nil => exact .nil
  | cons arm rest ih =>
      obtain ⟨harm, hrest⟩ := List.forall_mem_cons.1 h
      refine (harm rest _ (ih hrest)).of_eq ?_
      obtain ⟨_, _, body⟩ := arm
      show 1 + (Node.codeLinesBody body + (rest.length + Branch.codeLinesAll rest)) =
        rest.length + 1 + (Node.codeLinesBody body + Branch.codeLinesAll rest)
      omega

mutual

theorem Statement.adds {node : Node α} : Statement form node → ∀ around,
    0 < blocksIn around → node.joins = false →
      Adds setup.options around (node.marks setup) node.codeLines
  | .command .., around, hdepth, _ => .start hdepth _
  | .comment _, _, _, hjoins | .call .., _, _, hjoins => by cases hjoins
  | .conditional _ harms helse hnone, around, hdepth, _ => by
    have harms := Adds.arms fun arm harm => (harms arm harm).adds around hdepth
    have helse := Adds.body fun block hblock => (helse block hblock).adds around
    have hend : Adds setup.options around [.start [.keyword "end if"]] 1 := .start hdepth _
    rw [Node.marks, Node.codeLines]
    split
    · refine (harms.append ((Adds.cons hdepth _ helse).append hend)).of_eq ?_
      omega
    · next hasElse =>
      refine (harms.append hend).of_eq ?_
      rw [hnone (Bool.eq_false_iff.2 hasElse), Node.codeLinesBody]
      omega
  | .loop _ _ hbody, around, hdepth, _ => by
    have hbody := Adds.body fun block hblock => (hbody block hblock).adds around
    rw [Node.marks, Node.codeLines]
    exact .enclosed hdepth _ _ hbody
  | .function _ _ _ hbody, around, hdepth, _ => by
    have hbody := Adds.body fun block hblock => (hbody block hblock).adds around
    rw [Node.marks, Node.codeLines]
    exact .enclosed hdepth _ _ hbody

theorem Block.adds {node : Node α} : Block form node → ∀ around,
    Adds setup.options around (node.marks setup) node.codeLines
  | .mk hchildren _, around => by
    have hdepth : ∀ margin, 0 < blocksIn (.block margin :: around) := fun margin =>
      Nat.lt_of_lt_of_eq (Nat.succ_pos (blocksIn around)) (Nat.add_comm _ 1)
    have hadds := fun margin node hnode => (hchildren node hnode).adds (.block margin :: around)
      (hdepth margin)
    rw [Node.marks, Node.codeLines]
    exact .block fun count => extends_block hchildren (hadds _) (hdepth _) count

theorem Arm.adds {arm : Branch α} : Arm form arm → ∀ around, 0 < blocksIn around →
    ∀ rest lines, Adds setup.options around (Branch.marksAll setup rest) lines →
      Adds setup.options around (Branch.marksAll setup (arm :: rest))
        (1 + (Node.codeLinesBody arm.body + lines))
  | .mk _ hbody, around, hdepth, rest, lines, hrest => by
    have hbody := Adds.body fun block hblock => (hbody block hblock).adds around
    rw [Branch.marksAll]
    exact .cons hdepth _ (hbody.append hrest)

end

end Statements

/-! ## Environments -/

section Environments

variable {form : Form} {setup : Setup} {options : Options} {around : List Div}

theorem Html.numberedFrom_getElem? (count : Nat) (depths : List Nat) (i : Nat) :
    (numberedFrom options count depths)[i]? = depths[i]?.map fun depth =>
      (depth, if options.lineNumber.isTrue then [lineNumberAt options depth (count + i + 1)]
        else []) := by
  induction depths generalizing count i with
  | nil => rfl
  | cons depth rest ih =>
      cases i with
      | zero => rfl
      | succ i =>
          rw [numberedFrom, List.getElem?_cons_succ, List.getElem?_cons_succ, ih,
            Nat.add_right_comm count 1 i]
          rfl

theorem Html.length_numberedFrom (count : Nat) (depths : List Nat) :
    (numberedFrom options count depths).length = depths.length := by
  induction depths generalizing count with
  | nil => rfl
  | cons depth rest ih => rw [numberedFrom, List.length_cons, ih, List.length_cons]

/-- The label of a precondition is its first keyword. -/
theorem keyword?_precondition {name : String} (hname : name ∈ preconditionWords)
    (content : List Inline) :
    Inline.keyword? (labelInlines name ++ content) = commandLabel? name := by
  have hall : ∀ name ∈ preconditionWords, ∃ label ∈ commandLabel? name, label ≠ "" := by decide
  obtain ⟨label, hlabel, hne⟩ := hall name hname
  unfold labelInlines
  rw [hlabel]
  dsimp only
  rw [if_pos hne]
  rfl

theorem extends_precondition {loc : α} {name : String} (hname : name ∈ preconditionWords)
    (words : Phrase α) (s : Sheet) :
    Extends setup.options around s
      (s.writeAll setup.options 0 ((Node.command loc name words).marks setup)) 0
      [commandLabel? name] := by
  rw [← keyword?_precondition hname [words.inline setup]]
  exact .start_outside _

theorem extends_sections {sections : List (Node α)} (h : ∀ node ∈ sections, Section form node)
    (hdepth : blocksIn around = 0) (s : Sheet) :
    Extends setup.options around s (s.writeAll setup.options 0 (Node.marksAll setup sections))
      (environmentCodeLines sections) ((preconditions sections).map commandLabel?) := by
  induction sections generalizing s with
  | nil => exact .refl s
  | cons node rest ih =>
      obtain ⟨hnode, hrest⟩ := List.forall_mem_cons.1 h
      rw [Node.marksAll, Sheet.writeAll_append]
      have ih := ih hrest (s.writeAll setup.options 0 (node.marks setup))
      cases hnode with
      | precondition hname _ => exact (extends_precondition hname _ s).trans ih
      | block hblock =>
          have hfirst : Extends setup.options around s _ _ [] := hblock.adds around s
          -- an environment stands in no block
          rw [hdepth] at hfirst
          obtain ⟨_, _⟩ := hblock
          exact hfirst.trans ih

/-- Of the lines added to an empty sheet only code lines carry numbers, and these only
if lines are numbered. -/
theorem Html.Extends.numbered {count lines : Nat} {inner : Sheet} {labels : List (Option String)}
    (h : Extends options around { count := count } inner lines labels) {line : PrintedLine}
    (hline : line ∈ Box.linesAll around inner.boxes) (hnumbers : line.numbers ≠ []) :
    options.lineNumber.isTrue = true ∧ line.isCode = true := by
  obtain ⟨⟨depths, -, -, hcode⟩, hothers, -, -⟩ := h
  cases hkind : line.isCode with
  | false =>
      have hmem : (line.keywords.head?, line.numbers) ∈ Box.otherHeads around inner.boxes :=
        List.mem_map_of_mem (List.mem_filter.2 ⟨hline, by rw [hkind]; rfl⟩)
      rw [hothers] at hmem
      obtain ⟨label, -, hlabel⟩ := List.mem_map.1 hmem
      -- all of these were added without a number
      exact absurd (congrArg Prod.snd hlabel).symm hnumbers
  | true =>
      have hmem : (line.blocks, line.numbers) ∈ Box.codeHeads around inner.boxes :=
        List.mem_map_of_mem (List.mem_filter.2 ⟨hline, hkind⟩)
      rw [hcode] at hmem
      obtain ⟨i, hi⟩ := List.mem_iff_getElem?.1 hmem
      rw [show Box.codeHeads around (Sheet.boxes { count := count }) = [] from rfl,
        List.nil_append, numberedFrom_getElem?] at hi
      obtain ⟨depth, -, hdepth⟩ := Option.map_eq_some_iff.1 hi
      by_cases hnumbered : options.lineNumber.isTrue = true
      · exact ⟨hnumbered, rfl⟩
      · rw [if_neg hnumbered] at hdepth
        exact absurd (congrArg Prod.snd hdepth).symm hnumbers

/-- What is added to an empty sheet is what is read off its boxes, also when text has
been joined. -/
theorem numbersLines_of_extends {count : Nat} {inner : Sheet} {sections : List (Node α)}
    (hcount : options.lineNumber.isTrue = true → count = 0)
    (h : Extends options [] { count := count } inner (environmentCodeLines sections)
      ((preconditions sections).map commandLabel?)) :
    NumbersLines options sections (Box.fragmentsAll (Box.mergeAll inner.boxes)) := by
  obtain ⟨⟨depths, hlength, hpos, hcode⟩, hothers, -, -⟩ := h
  have hlines := linesIn_mergeAll inner.boxes []
  have hheads : (codeLinesIn (Box.fragmentsAll (Box.mergeAll inner.boxes))).map
      (fun line => (line.blocks, line.numbers)) = numberedFrom options count depths := by
    unfold codeLinesIn
    rw [hlines]
    exact hcode
  refine ⟨?_, ?_, ?_⟩
  · rw [← hlength, ← length_numberedFrom, ← hheads, List.length_map]
  · intro i line hline
    have hhead := congrArg (fun heads => heads[i]?) hheads
    rw [List.getElem?_map, hline, numberedFrom_getElem?] at hhead
    cases hdepth : depths[i]? with
    | none =>
        rw [hdepth] at hhead
        cases hhead
    | some depth =>
        rw [hdepth] at hhead
        injection hhead with hpair
        injection hpair with hblocks hnumbers
        refine ⟨?_, ?_⟩
        · rw [hblocks]
          exact hpos depth (List.mem_of_getElem? hdepth)
        · rw [hnumbers, hblocks]
          by_cases hnumbered : options.lineNumber.isTrue = true
          · rw [if_pos hnumbered, if_pos hnumbered, hcount hnumbered, Nat.zero_add]
            rfl
          · rw [if_neg hnumbered, if_neg hnumbered]
  · unfold otherLinesIn
    rw [hlines]
    refine hothers.trans ?_
    rw [List.map_map]
    rfl

/-- Where lines are numbered, the number of a code line can be told from its place and the
blocks around it. -/
theorem Html.NumbersLines.heads {sections : List (Node α)} {fragments : List Fragment}
    (h : NumbersLines options sections fragments) (hnumbered : options.lineNumber.isTrue = true) :
    (codeLinesIn fragments).map (fun line => (line.blocks, line.numbers)) =
      ((codeLinesIn fragments).map PrintedLine.blocks).mapIdx fun i depth =>
        (depth, [lineNumberAt options depth (i + 1)]) := by
  refine List.ext_getElem? fun i => ?_
  rw [List.getElem?_mapIdx, List.getElem?_map, List.getElem?_map]
  cases hline : (codeLinesIn fragments)[i]? with
  | none => rfl
  | some line =>
      have hnumbers := (h.numbers i line hline).2
      rw [if_pos hnumbered] at hnumbers
      exact congrArg (fun numbers => some (line.blocks, numbers)) hnumbers

end Environments

/-! ## Documents -/

/-- A line of a document stands in an environment or is a caption, and carries a number
only if lines are numbered and it is a code line. -/
def Html.PrintedLine.IsNumbered (options : Options) (line : PrintedLine) : Prop :=
  (line.InEnvironment ∨ line.IsCaption) ∧
    (line.numbers ≠ [] → options.lineNumber.isTrue = true ∧ line.isCode = true)

/-- Boxes hold the algorithmic environments of some nodes, in order, and captions
beside them. -/
structure Html.Presents (options : Options) (nodes : List (Node α)) (content : List Box) :
    Prop where
  environments : List.Forall₂ (fun sections inner =>
      NumbersLines options sections (Box.fragmentsAll (Box.mergeAll inner)))
    (Node.environmentsAll nodes) (Box.environmentsAll content)
  lines : ∀ around, blocksIn around = 0 → ∀ line ∈ Box.linesAll around content,
    line.IsNumbered options

/-- Marks put boxes below those of a sheet that hold the environments of some nodes. -/
def Html.Places (options : Options) (marks : List Mark) (nodes : List (Node α)) : Prop :=
  ∀ s : Sheet, ∃ content, (s.writeAll options 0 marks).boxes = s.boxes ++ content ∧
    Presents options nodes content

section Documents

variable {form : Form} {setup : Setup} {options : Options} {marks marks' : List Mark}
  {nodes nodes' : List (Node α)}

theorem Node.environmentsAll_append (l m : List (Node α)) :
    Node.environmentsAll (l ++ m) = Node.environmentsAll l ++ Node.environmentsAll m := by
  induction l with
  | nil => rfl
  | cons node rest ih =>
      simp only [List.cons_append, Node.environmentsAll, ih, List.append_assoc]

theorem Html.Presents.nil : Presents options ([] : List (Node α)) [] :=
  ⟨.nil, fun _ _ _ h => absurd h List.not_mem_nil⟩

theorem Html.Presents.append {content content' : List Box} (h : Presents options nodes content)
    (h' : Presents options nodes' content') :
    Presents options (nodes ++ nodes') (content ++ content') := by
  refine ⟨?_, ?_⟩
  · rw [Node.environmentsAll_append, Box.environmentsAll_append]
    exact List.rel_append h.environments h'.environments
  · intro around hdepth line hline
    rw [Box.linesAll_append] at hline
    rcases List.mem_append.1 hline with hline | hline
    · exact h.lines around hdepth line hline
    · exact h'.lines around hdepth line hline

theorem Html.Places.nil : Places options [] ([] : List (Node α)) := by
  intro s
  exact ⟨[], (List.append_nil _).symm, .nil⟩

theorem Html.Places.append (h : Places options marks nodes) (h' : Places options marks' nodes') :
    Places options (marks ++ marks') (nodes ++ nodes') := by
  intro s
  obtain ⟨content, hboxes, hcontent⟩ := h s
  obtain ⟨content', hboxes', hcontent'⟩ := h' (s.writeAll options 0 marks)
  refine ⟨content ++ content', ?_, hcontent.append hcontent'⟩
  rw [Sheet.writeAll_append, hboxes', hboxes, List.append_assoc]

/-- The container of an algorithm shows what it holds. -/
theorem Html.Places.algorithm {captioned : Bool} (h : Places options marks nodes) (loc : α)
    {parts : List (Node α)} (hparts : nodes = parts) :
    Places options [.inside (.algorithm captioned) marks] [.algorithm loc parts] := by
  subst hparts
  intro s
  obtain ⟨content, hboxes, hcontent⟩ := h { count := s.count }
  refine ⟨[.container (.algorithm captioned) content], ?_, ?_, ?_⟩
  · show (s.contain _ _).boxes = _
    rw [Sheet.boxes_contain]
    exact congrArg (fun inner => s.boxes ++ [.container (.algorithm captioned) inner]) hboxes
  · have henvironments := hcontent.environments
    rw [← List.append_nil (Node.environmentsAll nodes),
      ← List.append_nil (Box.environmentsAll content)] at henvironments
    exact henvironments
  · intro around hdepth line hline
    rw [Box.linesAll, Box.linesAll, List.append_nil] at hline
    have hdepth' : blocksIn (.algorithm captioned :: around) = 0 := hdepth ▸ Nat.zero_add _
    exact hcontent.lines _ hdepth' line hline

/-- The line of a caption stands outside all blocks. -/
theorem placesCaption (k : Nat) (parts : List (Node α)) :
    Places setup.options (captionMarks setup k parts) ([] : List (Node α)) := by
  unfold captionMarks
  cases lastCaption? parts with
  | none => exact .nil
  | some words =>
      intro s
      refine ⟨[.line ⟨.hanging (Em.format setup.options.indent.toBinary64), none,
        [.keyword ("Algorithm " ++ toString k), words.inline setup]⟩],
        Sheet.boxes_close _, .nil, fun around _ line hline => ?_⟩
      obtain rfl := List.mem_singleton.1 hline
      refine ⟨.inr ⟨?_, rfl, k, rfl⟩, fun hnumbers => absurd rfl hnumbers⟩
      intro hcode
      cases hcode

theorem Algorithmic.places {node : Node α} (h : Algorithmic form node) :
    Places setup.options (node.marks setup) [node] := by
  obtain ⟨hchildren, -⟩ := h
  intro s
  have hextends : ∀ around, blocksIn around = 0 → ∀ count : Nat,
      Extends setup.options around { count := count } _ _ _ := fun around hdepth count =>
    extends_sections hchildren hdepth { count := count }
  have hrecount : setup.options.lineNumber.isTrue = true →
      Div.recount s.count (.algorithmic setup.options.lineNumber.isTrue) = 0 := by
    intro hnumbered
    rw [hnumbered]
    rfl
  refine ⟨_, Sheet.boxes_contain s _ _, ?_, ?_⟩
  · have hextends := hextends [] rfl
      (Div.recount s.count (.algorithmic setup.options.lineNumber.isTrue))
    refine List.Forall₂.cons (numbersLines_of_extends hrecount hextends) ?_
    show List.Forall₂ _ [] (Box.environmentsAll _ ++ [])
    rw [List.append_nil]
    exact hextends.environments ▸ .nil
  · intro around hdepth line hline
    rw [Box.linesAll, Box.linesAll, List.append_nil] at hline
    have hdepth' : blocksIn (.algorithmic setup.options.lineNumber.isTrue :: around) = 0 :=
      hdepth ▸ Nat.zero_add _
    refine ⟨.inl ⟨setup.options.lineNumber.isTrue, ?_⟩, (hextends _ hdepth' _).numbered hline⟩
    exact (Box.suffix_around_all _ _ line hline).subset (List.mem_cons_self ..)

theorem Part.places {parts : List (Node α)} (hparts : ∀ part ∈ parts, Part form part) :
    Places setup.options (Node.marksAll setup parts) parts := by
  induction parts with
  | nil => exact .nil
  | cons part rest ih =>
      obtain ⟨hpart, hrest⟩ := List.forall_mem_cons.1 hparts
      cases hpart with
      | caption =>
          intro s
          obtain ⟨content, hboxes, hcontent⟩ := ih hrest s
          exact ⟨content, hboxes, hcontent.environments, hcontent.lines⟩
      | algorithmic halgorithmic => exact halgorithmic.places.append (ih hrest)

theorem Environment.places {node : Node α} (h : Environment form node) (captions : Nat) :
    Places setup.options (node.environmentMarks setup captions) [node] := by
  cases h with
  | algorithmic halgorithmic =>
      have hplaces : Places setup.options _ _ := halgorithmic.places
      obtain ⟨_, _⟩ := halgorithmic
      exact hplaces
  | @algorithm loc parts hparts =>
      have hcaption : Places setup.options _ _ := placesCaption (captions + 1) parts
      exact (hcaption.append (Part.places hparts)).algorithm loc rfl

theorem Environment.places_all {nodes : List (Node α)} (h : ∀ node ∈ nodes, Environment form node)
    (captions : Nat) :
    Places setup.options (Node.environmentsMarks setup captions nodes) nodes := by
  induction nodes generalizing captions with
  | nil => exact .nil
  | cons node rest ih =>
      obtain ⟨hnode, hrest⟩ := List.forall_mem_cons.1 h
      exact (hnode.places captions).append (ih hrest _)

end Documents

/-! ## Sources -/

/-- What a source is read as is rendered with the code lines that its tree asks for,
numbered in every algorithmic environment from one on if lines are numbered. The lines
of preconditions and captions carry no number, and if lines are not numbered no line
carries one. -/
theorem codeLines_of_parse {source : String} {tree : Node Source.Location}
    (hparse : parse source = .ok tree) (setup : Setup) :
    ((∃ s, setup.options.commentSymbol = .text s) → (∃ s, setup.options.lineNumberPunc = .text s) →
      (tree.rendering setup).fault = none) ∧
    ((tree.rendering setup).fault = none →
      List.Forall₂ (NumbersLines setup.options) tree.environments
        (environments (tree.rendering setup).page.fragments.toList) ∧
      ∀ line ∈ linesIn [] (tree.rendering setup).page.fragments.toList,
        line.IsNumbered setup.options) := by
  have hnormal := normal_of_parse hparse
  refine ⟨fun hsymbol hpunc => ?_, fun hfault => ?_⟩
  · have : setup.options.Textual := ⟨hsymbol, hpunc⟩
    exact hnormal.fault_eq_none setup
  · have hfragments := hnormal.rendering_fragments setup hfault
    obtain ⟨henvironments⟩ := hnormal
    obtain ⟨content, hboxes, hcontent⟩ := Environment.places_all henvironments 0 {}
    obtain rfl : _ = content := hboxes
    rw [hfragments]
    refine ⟨?_, ?_⟩
    · rw [environments_merge, List.forall₂_map_right_iff]
      exact hcontent.environments
    · rw [linesIn_merge]
      exact hcontent.lines [.document] rfl

/-- The comment at the beginning of the block has a line, the one behind the loop joins
the line of its end: there are four code lines, the line of the precondition not among
them. In the loop there is one block more, and the indent is 1.4 em. -/
theorem codeLines_comments_around_loop :
    let source := "\\begin{algorithmic}\\REQUIRE $n$\\COMMENT{a}\\FOR{$x$}\\STATE b\\ENDFOR" ++
      "\\COMMENT{c}\\end{algorithmic}"
    let setup : Setup := ⟨{ Options.default with lineNumber := .bool true }, delimited⟩
    ∃ tree, parse source = .ok tree ∧
      (environments (tree.rendering setup).page.fragments.toList).map
        (fun fragments => (codeLinesIn fragments).map fun line => (line.blocks, line.numbers)) =
          [[(1, [⟨"0", 1, ":"⟩]), (1, [⟨"0", 2, ":"⟩]), (2, [⟨"1.7", 3, ":"⟩]),
            (1, [⟨"0", 4, ":"⟩])]] ∧
      ∀ line ∈ linesIn [] (tree.rendering setup).page.fragments.toList,
        line.IsNumbered setup.options := by
  intro source setup
  have hrun : (parse source).toOption.map (fun tree =>
      (environments (tree.rendering setup).page.fragments.toList).map
        fun fragments => (codeLinesIn fragments).map PrintedLine.blocks) = some [[1, 1, 2, 1]] := by
    have htext : source.toList = _ := toList_append_ofList
    rw [parse_of_toList htext]
    decide +kernel
  cases htree : parse source with
  | error fault =>
      rw [htree] at hrun
      cases hrun
  | ok tree =>
      rw [htree] at hrun
      obtain ⟨hfault, hlines⟩ := codeLines_of_parse htree setup
      obtain ⟨henvironments, hnumbered⟩ := hlines (hfault ⟨_, rfl⟩ ⟨_, rfl⟩)
      refine ⟨tree, rfl, ?_, hnumbered⟩
      obtain ⟨fragments, hfragments, hblocks⟩ := List.map_eq_singleton_iff.1 (Option.some.inj hrun)
      rw [hfragments] at henvironments ⊢
      obtain ⟨sections, _, hnumbers, -, -⟩ := List.forall₂_cons_right_iff.1 henvironments
      rw [List.map_singleton, hnumbers.heads rfl, hblocks]
      decide +kernel

end AlgoBox
