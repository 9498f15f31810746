import AlgoBox.Proofs.Restoring
import Mathlib.Algebra.GroupWithZero.Nat

/-!
# Outlines line by line

The text of an outline is made from one line for each node, in the order in which the
nodes open: two spaces for each level, the type, and the value in parentheses if it is
not empty. Where no value holds a line feed these are the lines of the text, and the
nesting is read back from their indentation (`Sketch.ofLines_map_line`). Values are
pieces of the source, though, and are written as they are, so that every line feed in one
breaks the line of its node (`dump_lines`).
-/

namespace AlgoBox

open Source

variable {α β ε : Type}

/-! ## Lines -/

/-- A text cut at its line feeds. -/
def splitLines (s : String) : List String := (s.toList.splitOn '\n').map String.ofList

theorem splitLines_of_not_mem {s : String} (h : '\n' ∉ s.toList) : splitLines s = [s] := by
  unfold splitLines
  rw [List.splitOn_eq_singleton h, List.map_singleton, String.ofList_toList]

/-- Texts joined by line feeds have the lines of each in turn. -/
theorem splitLines_intercalate {l : List String} (hl : l ≠ []) :
    splitLines ("\n".intercalate l) = l.flatMap splitLines := by
  induction l with
  | nil => exact absurd rfl hl
  | cons s rest ih =>
      cases rest with
      | nil => simp [splitLines]
      | cons t rest =>
          have hjoin : ("\n".intercalate (s :: t :: rest)).toList =
              s.toList ++ '\n' :: ("\n".intercalate (t :: rest)).toList := by
            simp [String.toList_intercalate]
          rw [List.flatMap_cons, ← ih (List.cons_ne_nil _ _)]
          unfold splitLines
          rw [hjoin, List.splitOn_append_cons_self, List.map_append]

/-- There is one line more than there are line feeds. -/
theorem length_splitLines (s : String) :
    (splitLines s).length = s.toList.count '\n' + 1 := by
  have hlength : ∀ l : List Char, (l.splitOn '\n').length = l.count '\n' + 1 := by
    intro l
    induction l with
    | nil => rfl
    | cons c rest ih =>
        rw [List.splitOn_cons_eq_if_modifyHead, List.count_cons]
        split
        · rw [List.length_cons, ih]
        · rw [List.length_modifyHead, ih, Nat.add_zero]
  unfold splitLines
  rw [List.length_map, hlength]

namespace Outline

/-! ## The nodes of an outline in a row -/

/-- A node of an outline by the number of nodes around it, its type and its value. -/
structure Entry where
  level : Nat
  type : String
  value : Outline.Value

namespace Entry

/-- What a line says of its node: the type, and the value if it is not empty. -/
def label (e : Entry) : String :=
  "<" ++ e.type ++ ">" ++ (e.value.text?.map fun s => " (" ++ s ++ ")").getD ""

/-- The line of a node: two spaces for each level and the label. -/
def line (e : Entry) : String := String.ofList (List.replicate (2 * e.level) ' ') ++ e.label

/-- The number of line feeds in the value of a node. -/
def breaks (e : Entry) : Nat := (e.value.text?.getD "").toList.count '\n'

end Entry

mutual

/-- The nodes of an outline whose top is at a level, each in front of its children. -/
def entries (level : Nat) : Outline α → List Entry
  | .mk _ type value children => ⟨level, type, value⟩ :: entriesAll (level + 1) children

/-- The nodes of some outlines at a level. -/
def entriesAll (level : Nat) : List (Outline α) → List Entry
  | [] => []
  | outline :: rest => outline.entries level ++ entriesAll level rest

end

mutual

/-- The number of nodes of an outline. -/
def size : Outline α → Nat
  | .mk _ _ _ children => sizeAll children + 1

/-- The number of nodes of some outlines. -/
def sizeAll : List (Outline α) → Nat
  | [] => 0
  | outline :: rest => outline.size + sizeAll rest

end

mutual

theorem length_entries (level : Nat) : ∀ outline : Outline α,
    (outline.entries level).length = outline.size
  | .mk _ _ _ children => by
    rw [entries, List.length_cons, length_entriesAll (level + 1) children, size]

theorem length_entriesAll (level : Nat) : ∀ outlines : List (Outline α),
    (entriesAll level outlines).length = sizeAll outlines
  | [] => rfl
  | outline :: rest => by
    rw [entriesAll, List.length_append, length_entries level outline,
      length_entriesAll level rest, sizeAll]

end

theorem line_eq (e : Entry) : Outline.line e.level e.type e.value = e.line := by
  unfold Outline.line Entry.line Entry.label
  have hlevel : (2 * (e.level : Int)).toNat = 2 * e.level := by omega
  rw [hlevel]
  cases e.value.text? <;> simp [String.append_assoc]

mutual

/-- An outline is written node by node. -/
theorem lines_eq_map_line (level : Nat) : ∀ outline : Outline α,
    outline.lines level = (outline.entries level).map Entry.line
  | .mk _ type value children => by
    rw [lines, entries, List.map_cons, ← line_eq]
    exact congrArg _ (linesAll_eq_map_line (level + 1) children)

theorem linesAll_eq_map_line (level : Nat) : ∀ outlines : List (Outline α),
    linesAll level outlines = (entriesAll level outlines).map Entry.line
  | [] => rfl
  | outline :: rest => by
    rw [linesAll, entriesAll, List.map_append, lines_eq_map_line level outline,
      linesAll_eq_map_line level rest]

end

/-! ## Reading the nesting back -/

/-- What lines by their indentation say of a tree: a label at every node, and what is nested
in it. -/
inductive Sketch where
  | mk (label : String) (inner : List Sketch)

mutual

/-- An outline with the labels of its nodes only. -/
def sketch : Outline α → Sketch
  | .mk _ type value children => .mk (Entry.label ⟨0, type, value⟩) (sketchAll children)

/-- The sketches of some outlines. -/
def sketchAll : List (Outline α) → List Sketch
  | [] => []
  | outline :: rest => outline.sketch :: sketchAll rest

end

namespace Sketch

/-- The level of a line, half the number of spaces in front, and what stands behind them. -/
def unindent (line : String) : Nat × String :=
  ((line.toList.takeWhile (· = ' ')).length / 2,
    String.ofList (line.toList.dropWhile (· = ' ')))

/-- A line in front of sketches by their levels: the ones that are indented further, up to
the first that is not, are nested in it. -/
def push (line : Nat × String) (behind : List (Nat × Sketch)) : List (Nat × Sketch) :=
  (line.1, .mk line.2 ((behind.takeWhile (line.1 < ·.1)).map (·.2))) ::
    behind.dropWhile (line.1 < ·.1)

/-- The sketches that lines write by their indentation. -/
def ofLines (lines : List String) : List Sketch :=
  ((lines.map unindent).foldr push []).map (·.2)

/-- What stands behind a node goes on at its level or further out. -/
def Stops (level : Nat) (behind : List (Nat × Sketch)) : Prop :=
  ∀ next ∈ behind.head?, next.1 ≤ level

theorem unindent_line (e : Entry) : unindent e.line = (e.level, e.label) := by
  have hlabel : ∃ rest, e.label.toList = '<' :: rest := by
    unfold Entry.label
    exact ⟨_, by simp only [String.toList_append, List.append_assoc]; rfl⟩
  obtain ⟨rest, hrest⟩ := hlabel
  have hline : e.line.toList = List.replicate (2 * e.level) ' ' ++ '<' :: rest := by
    unfold Entry.line
    rw [String.toList_append, String.toList_ofList, hrest]
  have hspaces : ∀ c ∈ List.replicate (2 * e.level) ' ', decide (c = ' ') = true := fun c hc =>
    decide_eq_true (List.eq_of_mem_replicate hc)
  unfold unindent
  rw [hline, List.takeWhile_append_of_pos hspaces, List.dropWhile_append_of_pos hspaces]
  simp only [List.takeWhile_cons, List.dropWhile_cons]
  rw [if_neg (by decide), if_neg (by decide), ← hrest, String.ofList_toList, List.append_nil,
    List.length_replicate, Nat.mul_div_cancel_left _ (by decide)]

/-- A node takes up just the sketches of its children. -/
theorem push_children {level : Nat} {label : String} {behind : List (Nat × Sketch)}
    (hstops : Stops level behind) (children : List (Outline α)) :
    push (level, label) ((sketchAll children).map ((level + 1, ·)) ++ behind) =
      (level, .mk label (sketchAll children)) :: behind := by
  have hinner : ∀ next ∈ (sketchAll children).map ((level + 1, ·)),
      decide (level < next.1) = true := by
    simp
  have hbehind : behind.takeWhile (fun next => decide (level < next.1)) = [] ∧
      behind.dropWhile (fun next => decide (level < next.1)) = behind := by
    cases behind with
    | nil => exact ⟨rfl, rfl⟩
    | cons next rest =>
        have hnext : ¬level < next.1 := Nat.not_lt.mpr (hstops next rfl)
        simp [hnext]
  unfold push
  dsimp only
  rw [List.takeWhile_append_of_pos hinner, List.dropWhile_append_of_pos hinner, hbehind.1,
    hbehind.2]
  simp [Function.comp_def]

mutual

/-- The lines of an outline are read as its sketch, whatever stands behind them. -/
theorem foldr_push_entries {level : Nat} {behind : List (Nat × Sketch)}
    (hstops : Stops level behind) : ∀ outline : Outline α,
    ((outline.entries level).map fun e => (e.level, e.label)).foldr push behind =
      (level, outline.sketch) :: behind
  | .mk _ type value children => by
    have hinner : Stops (level + 1) behind := fun next hnext =>
      Nat.le_succ_of_le (hstops next hnext)
    have hchildren := foldr_push_entriesAll hinner children
    rw [entries, List.map_cons, List.foldr_cons, hchildren, push_children hstops, sketch]
    rfl

theorem foldr_push_entriesAll {level : Nat} {behind : List (Nat × Sketch)}
    (hstops : Stops level behind) : ∀ outlines : List (Outline α),
    ((entriesAll level outlines).map fun e => (e.level, e.label)).foldr push behind =
      (sketchAll outlines).map ((level, ·)) ++ behind
  | [] => rfl
  | outline :: rest => by
    rw [entriesAll, List.map_append, List.foldr_append, foldr_push_entriesAll hstops rest,
      foldr_push_entries ?_ outline, sketchAll, List.map_cons, List.cons_append]
    cases rest with
    | nil => exact hstops
    | cons next rest =>
        rintro _ ⟨⟩
        exact Nat.le_refl level

end

/-- The nesting of an outline is read back from the lines of its nodes. -/
theorem ofLines_map_line (level : Nat) (outline : Outline α) :
    ofLines ((outline.entries level).map Entry.line) = [outline.sketch] := by
  have hstops : Stops level [] := nofun
  have hread := foldr_push_entries hstops outline
  unfold ofLines
  rw [List.map_map]
  simp only [Function.comp_def, unindent_line]
  rw [hread]
  rfl

end Sketch

/-! ## Values that break lines -/

/-- The types of all nodes of an outline are on one line. -/
def TypedOnLine (outline : Outline α) : Prop :=
  ∀ level, ∀ e ∈ outline.entries level, '\n' ∉ e.type.toList

theorem typedOnLine_mk {loc : α} {type : String} {value : Outline.Value}
    {children : List (Outline α)} (htype : '\n' ∉ type.toList)
    (hchildren : ∀ child ∈ children, child.TypedOnLine) :
    (Outline.mk loc type value children).TypedOnLine := by
  have hall : ∀ {outlines : List (Outline α)} {level}, (∀ o ∈ outlines, o.TypedOnLine) →
      ∀ e ∈ entriesAll level outlines, '\n' ∉ e.type.toList := by
    intro outlines level h
    induction outlines with
    | nil => nofun
    | cons outline rest ih =>
        obtain ⟨houtline, hrest⟩ := List.forall_mem_cons.mp h
        intro e he
        exact (List.mem_append.mp he).elim (houtline level e) (ih hrest e)
  rintro level e (_ | ⟨_, he⟩)
  · exact htype
  · exact hall hchildren e he

theorem Entry.count_line {e : Entry} (htype : '\n' ∉ e.type.toList) :
    e.line.toList.count '\n' = e.breaks := by
  have hspaces : (List.replicate (2 * e.level) ' ').count '\n' = 0 :=
    List.count_eq_zero.mpr fun h => absurd (List.eq_of_mem_replicate h) (by decide)
  unfold Entry.line Entry.label Entry.breaks
  cases e.value.text? <;>
    simp [String.toList_append, List.count_append, hspaces, List.count_eq_zero.mpr htype]

/-- The text of an outline has the lines of its nodes in turn. -/
theorem splitLines_dump (outline : Outline α) :
    splitLines (outline.dump 0) =
      (outline.entries 0).flatMap fun e => splitLines e.line := by
  have hlines : outline.lines 0 = (outline.entries 0).map Entry.line :=
    lines_eq_map_line 0 outline
  unfold dump
  rw [splitLines_intercalate, hlines, List.flatMap_map]
  obtain ⟨loc, type, value, children⟩ := outline
  exact List.cons_ne_nil _ _

/-- Every line feed in a value makes one line more. -/
theorem length_splitLines_dump {outline : Outline α} (htyped : outline.TypedOnLine) :
    (splitLines (outline.dump 0)).length =
      outline.size + ((outline.entries 0).map Entry.breaks).sum := by
  have hsum : ∀ {l : List Entry}, (∀ e ∈ l, '\n' ∉ e.type.toList) →
      (l.flatMap fun e => splitLines e.line).length =
        l.length + (l.map Entry.breaks).sum := by
    intro l h
    induction l with
    | nil => rfl
    | cons e rest ih =>
        obtain ⟨he, hrest⟩ := List.forall_mem_cons.mp h
        rw [List.flatMap_cons, List.length_append, ih hrest, length_splitLines,
          Entry.count_line he, List.length_cons, List.map_cons, List.sum_cons]
        omega
  rw [splitLines_dump, hsum (htyped 0), length_entries]

/-- The lines are the ones of the nodes just if no value holds a line feed. -/
theorem splitLines_dump_eq_iff {outline : Outline α} (htyped : outline.TypedOnLine) :
    splitLines (outline.dump 0) = (outline.entries 0).map Entry.line ↔
      ∀ e ∈ outline.entries 0, e.breaks = 0 := by
  constructor
  · intro h
    have hlength := length_splitLines_dump htyped
    rw [h, List.length_map, length_entries] at hlength
    have hsum : ((outline.entries 0).map Entry.breaks).sum = 0 := by omega
    intro e he
    exact List.sum_eq_zero_iff_forall_eq_nat.mp hsum _ (List.mem_map_of_mem he)
  · intro h
    rw [splitLines_dump, List.map_eq_flatMap]
    refine List.flatMap_congr fun e he => splitLines_of_not_mem ?_
    rw [← List.count_eq_zero, Entry.count_line (htyped 0 e he), h e he]

end Outline

/-! ## Types -/

theorem Node.typeName_onLine (node : Node α) : '\n' ∉ node.typeName.toList := by
  cases node with
  | leaf loc item => cases item <;> simp [Node.typeName, Leaf.typeName]
  | _ => simp [Node.typeName, Node.blockTypeName, Phrase.typeName, Branch.typeName]

open Outline

theorem typedOnLine_emptyBlock (loc : α) : (emptyBlock loc).TypedOnLine :=
  typedOnLine_mk (by decide) nofun

theorem outlineElse_typedOnLine {loc : α} {hasElse : Bool} {body : Option (Node α)}
    (h : Gives (Node.outlineBody loc body) TypedOnLine) :
    Gives (Node.outlineElse loc hasElse body) fun last => ∀ o ∈ last, o.TypedOnLine := by
  cases hasElse with
  | false => exact .pure nofun
  | true => exact h.map fun o ho => List.forall_mem_singleton.mpr ho

mutual

/-- The types in an outline are names of kinds of nodes. -/
theorem Node.outline_typedOnLine : ∀ node : Node α, Gives node.outline TypedOnLine
  | .bare _ | .branch _ => nofun
  | .leaf _ item => .pure (typedOnLine_mk (Node.typeName_onLine (.leaf () item)) nofun)
  | .root loc children | .algorithm loc children | .algorithmic loc children
  | .block loc children =>
    (Node.outlineAll_typedOnLine children).bind fun _ h =>
      .pure (typedOnLine_mk (Node.typeName_onLine _) h)
  | .text words => Phrase.outline_typedOnLine words
  | .caption loc words | .comment loc words | .command loc _ words | .call loc _ words =>
    (Phrase.outline_typedOnLine words).bind fun _ h =>
      .pure (typedOnLine_mk (Node.typeName_onLine _) (List.forall_mem_singleton.mpr h))
  | .loop loc _ words body | .function loc _ _ words body =>
    (Phrase.outline_typedOnLine words).bind fun _ hwords =>
      (Node.outlineBody_typedOnLine loc body).bind fun _ hbody =>
        .pure (typedOnLine_mk (Node.typeName_onLine _) (by simp [hwords, hbody]))
  | .conditional loc branches hasElse elseBody => by
    rw [Node.outline_conditional]
    exact (Branch.outlineAll_typedOnLine loc branches).bind fun _ harms =>
      (outlineElse_typedOnLine (Node.outlineBody_typedOnLine loc elseBody)).bind fun _ hlast =>
        .pure (typedOnLine_mk (by decide) (List.forall_mem_append.mpr ⟨harms, hlast⟩))

theorem Phrase.outline_typedOnLine : ∀ words : Phrase α, Gives words.outline TypedOnLine
  | .mk _ items => (Node.outlineAll_typedOnLine items).bind fun _ h =>
    .pure (typedOnLine_mk (by decide) h)

theorem Branch.outlineAll_typedOnLine (loc : α) : ∀ branches : List (Branch α),
    Gives (Branch.outlineAll loc branches) fun os => ∀ o ∈ os, o.TypedOnLine
  | [] => .pure nofun
  | .mk _ cond body :: rest => (Phrase.outline_typedOnLine cond).bind fun _ hcond =>
    (Node.outlineBody_typedOnLine loc body).bind fun _ hbody =>
      (Branch.outlineAll_typedOnLine loc rest).bind fun _ hrest =>
        .pure (List.forall_mem_cons.mpr ⟨hcond, List.forall_mem_cons.mpr ⟨hbody, hrest⟩⟩)

theorem Node.outlineAll_typedOnLine : ∀ nodes : List (Node α),
    Gives (Node.outlineAll nodes) fun os => ∀ o ∈ os, o.TypedOnLine
  | [] => .pure nofun
  | node :: rest => (Node.outline_typedOnLine node).bind fun _ hnode =>
    (Node.outlineAll_typedOnLine rest).bind fun _ hrest =>
      .pure (List.forall_mem_cons.mpr ⟨hnode, hrest⟩)

theorem Node.outlineBody_typedOnLine (loc : α) : ∀ body : Option (Node α),
    Gives (Node.outlineBody loc body) TypedOnLine
  | none => .pure (typedOnLine_emptyBlock loc)
  | some node => Node.outline_typedOnLine node

end

/-! ## The text of a tree that has been read -/

/-- The outline of a tree that has been read has the lines of its nodes in turn, each node
in front of its children, and one line more for every line feed in a value. So the lines
are one for each node just if no value holds a line feed, and then the nesting is read
back from them. -/
theorem dump_lines {source : String} {tree : Node Location} (hparse : parse source = .ok tree) :
    ∃ outline, tree.outline = .ok outline ∧
      (outline.entries 0).length = outline.size ∧
      splitLines (outline.dump 0) = (outline.entries 0).flatMap (fun e => splitLines e.line) ∧
      (splitLines (outline.dump 0)).length =
        outline.size + ((outline.entries 0).map Entry.breaks).sum ∧
      (splitLines (outline.dump 0) = (outline.entries 0).map Entry.line ↔
        ∀ e ∈ outline.entries 0, e.breaks = 0) ∧
      ((∀ e ∈ outline.entries 0, e.breaks = 0) →
        Sketch.ofLines (splitLines (outline.dump 0)) = [outline.sketch]) := by
  obtain ⟨outline, houtline⟩ := Document.outline_succeeds (normal_of_parse hparse)
  have htyped := Node.outline_typedOnLine tree outline houtline
  have hlines := splitLines_dump_eq_iff htyped
  refine ⟨outline, houtline, length_entries 0 outline, splitLines_dump outline,
    length_splitLines_dump htyped, hlines, fun hbreaks => ?_⟩
  rw [hlines.mpr hbreaks]
  exact Sketch.ofLines_map_line 0 outline

/-- A conditional with a last arm is read back from its outline. -/
theorem dump_lines_conditional :
    let source := "\\begin{algorithmic}\\IF{a}\\STATE $b$\\ELSE\\RETURN\\ENDIF\\end{algorithmic}"
    ∃ tree outline, parse source = .ok tree ∧ tree.outline = .ok outline ∧
      Sketch.ofLines (splitLines (outline.dump 0)) = [outline.sketch] := by
  intro source
  have hbreaks : (match parse source with
      | .ok tree => match tree.outline with
        | .ok outline => decide (∀ e ∈ outline.entries 0, e.breaks = 0)
        | .error _ => false
      | .error _ => false) = true := by
    have htext : source.toList = _ := String.toList_ofList
    rw [parse_of_toList htext]
    decide +kernel
  cases hparse : parse source with
  | error fault =>
      rw [hparse] at hbreaks
      cases hbreaks
  | ok tree =>
      obtain ⟨outline, houtline, -, -, -, -, hread⟩ := dump_lines hparse
      rw [hparse] at hbreaks
      dsimp only at hbreaks
      rw [houtline] at hbreaks
      exact ⟨tree, outline, rfl, houtline, hread (of_decide_eq_true hbreaks)⟩

/-- Not every node has a line of its own: text that goes on in the next line of the source
does so in the outline. -/
theorem not_always_one_line_per_node :
    ¬∀ (source : String) (tree : Node Location) (outline : Outline Location),
      parse source = .ok tree → tree.outline = .ok outline →
      splitLines (outline.dump 0) = (outline.entries 0).map Entry.line := by
  intro h
  have hfails : (match parse "\\begin{algorithmic}\\STATE a\nb\\end{algorithmic}" with
      | .ok tree => match tree.outline with
        | .ok outline => decide (splitLines (outline.dump 0) = (outline.entries 0).map Entry.line)
        | .error _ => true
      | .error _ => true) = false := by
    have htext : "\\begin{algorithmic}\\STATE a\nb\\end{algorithmic}".toList = _ :=
      String.toList_ofList
    rw [parse_of_toList htext]
    decide +kernel
  cases hparse : parse "\\begin{algorithmic}\\STATE a\nb\\end{algorithmic}" with
  | error fault =>
      rw [hparse] at hfails
      cases hfails
  | ok tree =>
      cases houtline : tree.outline with
      | error fault =>
          simp only [hparse, houtline] at hfails
          cases hfails
      | ok outline =>
          simp only [hparse, houtline] at hfails
          exact of_decide_eq_false hfails (h _ tree outline hparse houtline)

end AlgoBox
