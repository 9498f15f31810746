import AlgoBox.Proofs.Boxes

/-!
# Reading lines off the output

Which containers an output has, which lines, with the containers around them, and
what stands in its algorithmic environments, read off the sequence of fragments alone
(`containers`, `linesIn`, `environments`). Of boxes the last two can be told by their
shape (`Box.linesAll`, `Box.environmentsAll`), and the two agree (`linesIn_fragmentsAll`,
`environments_fragmentsAll`), also when text has been joined.
-/

namespace AlgoBox.Html

/-! ## Containers -/

/-- The start tags of the containers in a sequence of fragments, and for every end
tag of a container `none`. -/
def containers (fragments : List Fragment) : List (Option Div) :=
  fragments.filterMap fun
    | .openDiv div => some (some div)
    | .closeDiv => some none
    | _ => none

theorem containers_append (l m : List Fragment) :
    containers (l ++ m) = containers l ++ containers m :=
  List.filterMap_append

theorem containers_cons (f : Fragment) (fragments : List Fragment) :
    containers (f :: fragments) = containers [f] ++ containers fragments :=
  containers_append [f] fragments

theorem containers_inlines (content : List Inline) :
    containers (Inline.fragmentsAll content) = [] := by
  refine List.filterMap_eq_nil_iff.2 fun f hf => ?_
  have hinline := Inline.isInline_of_mem_all content f hf
  cases f with
  | openDiv => exact hinline.elim
  | closeDiv => exact hinline.elim
  | _ => rfl

theorem containers_row (row : Row) : containers row.fragments = [] := by
  have hopened : containers row.opened = [] := by
    rw [Row.opened, containers_cons, containers_append, containers_cons (.openSpan .content),
      containers_inlines]
    cases row.number <;> rfl
  rw [Row.fragments, containers_append, hopened]
  rfl

/-! ## Lines in a sequence of fragments -/

/-- A line of the output: the containers around it, the innermost one first, how it is set,
and the numbers and keywords in it. -/
structure PrintedLine where
  around : List Div
  line : Line
  numbers : List LineNumber
  keywords : List String

/-- The number that a fragment is. -/
def Fragment.lineNumber? : Fragment → Option LineNumber
  | lineNumber offset number punc => some ⟨offset, number, punc⟩
  | _ => none

/-- The keyword that a fragment is. -/
def Fragment.keyword? : Fragment → Option String
  | keyword word => some word
  | _ => none

/-- A line with these fragments between its tags. -/
def PrintedLine.ofContent (around : List Div) (line : Line) (content : List Fragment) :
    PrintedLine :=
  ⟨around, line, content.filterMap Fragment.lineNumber?, content.filterMap Fragment.keyword?⟩

/-- The lines in a sequence of fragments that stands inside some containers. -/
def linesIn : List Div → List Fragment → List PrintedLine
  | _, [] => []
  | around, .openDiv div :: rest => linesIn (div :: around) rest
  | around, .closeDiv :: rest => linesIn around.tail rest
  | around, .openLine line :: rest =>
    .ofContent around line (rest.takeWhile (· ≠ .closeLine)) :: linesIn around rest
  | around, _ :: rest => linesIn around rest

/-- The fragments up to the end tag of the container that they stand in, a number of
inner containers being open. -/
def untilEnd : Nat → List Fragment → List Fragment
  | _, [] => []
  | opened, .openDiv div :: rest => .openDiv div :: untilEnd (opened + 1) rest
  | 0, .closeDiv :: _ => []
  | opened + 1, .closeDiv :: rest => .closeDiv :: untilEnd opened rest
  | opened, f :: rest => f :: untilEnd opened rest

/-- What stands between the tags of each algorithmic environment. -/
def environments : List Fragment → List (List Fragment)
  | [] => []
  | .openDiv (.algorithmic _) :: rest => untilEnd 0 rest :: environments rest
  | _ :: rest => environments rest

/-! ## Lines in boxes -/

/-- A line of a box inside some containers. -/
def Row.printed (around : List Div) (row : Row) : PrintedLine :=
  ⟨around, row.line, row.number.toList,
    (Inline.fragmentsAll row.content).filterMap Fragment.keyword?⟩

mutual

/-- The lines of a box inside some containers. -/
def Box.lines (around : List Div) : Box → List PrintedLine
  | .line row => [row.printed around]
  | .container div content => Box.linesAll (div :: around) content

/-- The lines of some boxes inside some containers. -/
def Box.linesAll (around : List Div) : List Box → List PrintedLine
  | [] => []
  | box :: rest => box.lines around ++ Box.linesAll around rest

end

mutual

/-- What the algorithmic environments of a box hold. -/
def Box.environments : Box → List (List Box)
  | .line _ => []
  | .container (.algorithmic _) content => content :: Box.environmentsAll content
  | .container _ content => Box.environmentsAll content

/-- What the algorithmic environments of some boxes hold. -/
def Box.environmentsAll : List Box → List (List Box)
  | [] => []
  | box :: rest => box.environments ++ Box.environmentsAll rest

end

theorem Box.linesAll_append (around : List Div) (l m : List Box) :
    linesAll around (l ++ m) = linesAll around l ++ linesAll around m := by
  induction l with
  | nil => rfl
  | cons box rest ih => simp only [List.cons_append, linesAll, ih, List.append_assoc]

mutual

/-- A line in a box is inside the containers around the box. -/
theorem Box.suffix_around : ∀ (box : Box) (around : List Div),
    ∀ printed ∈ box.lines around, around <:+ printed.around
  | .line row, around, printed, h => by
    obtain rfl := List.mem_singleton.1 h
    exact List.suffix_refl around
  | .container div content, around, printed, h => by
    have hinner := Box.suffix_around_all content (div :: around) printed h
    exact (List.suffix_cons div around).trans hinner

theorem Box.suffix_around_all : ∀ (content : List Box) (around : List Div),
    ∀ printed ∈ linesAll around content, around <:+ printed.around
  | [], _, _, h => absurd h List.not_mem_nil
  | box :: rest, around, printed, h => by
    rcases List.mem_append.1 h with h | h
    · exact Box.suffix_around box around printed h
    · exact Box.suffix_around_all rest around printed h

end

theorem Box.environmentsAll_append (l m : List Box) :
    environmentsAll (l ++ m) = environmentsAll l ++ environmentsAll m := by
  induction l with
  | nil => rfl
  | cons box rest ih => simp only [List.cons_append, environmentsAll, ih, List.append_assoc]

/-! ## The lines of the fragments of boxes -/

section Inline

variable {content : List Fragment} (h : ∀ f ∈ content, f.IsInline)
include h

theorem linesIn_inline (around : List Div) (rest : List Fragment) :
    linesIn around (content ++ rest) = linesIn around rest := by
  induction content with
  | nil => rfl
  | cons f content ih =>
      obtain ⟨hf, hcontent⟩ := List.forall_mem_cons.1 h
      have ih := ih hcontent
      cases f with
      | openDiv => exact hf.elim
      | closeDiv => exact hf.elim
      | openLine => exact hf.elim
      | closeLine => exact hf.elim
      | _ => exact ih

theorem takeWhile_inline (rest : List Fragment) :
    (content ++ .closeLine :: rest).takeWhile (· ≠ .closeLine) = content := by
  have hne : ∀ f ∈ content, decide (f ≠ .closeLine) = true := by
    intro f hf
    refine decide_eq_true ?_
    rintro rfl
    exact h _ hf
  rw [List.takeWhile_append_of_pos hne]
  exact List.append_nil content

theorem lineNumbers_inline : content.filterMap Fragment.lineNumber? = [] := by
  refine List.filterMap_eq_nil_iff.2 fun f hf => ?_
  have hinline := h f hf
  cases f with
  | lineNumber => exact hinline.elim
  | _ => rfl

end Inline

/-- What a line holds behind its number. -/
def Row.held (row : Row) : List Fragment :=
  .openSpan .content :: (Inline.fragmentsAll row.content ++ [.closeSpan])

theorem Row.fragments_eq (row : Row) :
    row.fragments = .openLine row.line ::
      (row.number.toList.map LineNumber.fragment ++ (row.held ++ [.closeLine])) := by
  simp only [fragments, opened, held, ending, List.cons_append, List.append_assoc,
    List.nil_append]

theorem Row.isInline_held (row : Row) : ∀ f ∈ row.held, f.IsInline := by
  intro f hf
  rw [held, List.mem_cons, List.mem_append, List.mem_singleton] at hf
  rcases hf with rfl | hf | rfl
  · trivial
  · exact Inline.isInline_of_mem_all row.content f hf
  · trivial

theorem Row.keywords_held (row : Row) :
    row.held.filterMap Fragment.keyword? =
      (Inline.fragmentsAll row.content).filterMap Fragment.keyword? := by
  show (Inline.fragmentsAll row.content ++ [Fragment.closeSpan]).filterMap _ = _
  rw [List.filterMap_append]
  exact List.append_nil _

theorem linesIn_row (row : Row) (around : List Div) (rest : List Fragment) :
    linesIn around (row.fragments ++ rest) = row.printed around :: linesIn around rest := by
  have hheld := row.isInline_held
  have hskip : linesIn around (row.held ++ .closeLine :: rest) = linesIn around rest :=
    linesIn_inline hheld around (.closeLine :: rest)
  have htake := takeWhile_inline hheld rest
  have hnumbers := lineNumbers_inline hheld
  have hkeywords := row.keywords_held
  rw [Row.fragments_eq, List.cons_append, List.append_assoc, List.append_assoc]
  unfold Row.printed
  rw [← hkeywords]
  cases row.number with
  | none =>
      show .ofContent around row.line ((row.held ++ .closeLine :: rest).takeWhile _) ::
        linesIn around (row.held ++ .closeLine :: rest) = _
      rw [hskip, htake, PrintedLine.ofContent, hnumbers]
      rfl
  | some n =>
      show .ofContent around row.line
        ((n.fragment :: (row.held ++ .closeLine :: rest)).takeWhile _) ::
          linesIn around (row.held ++ .closeLine :: rest) = _
      have hfirst : (n.fragment :: (row.held ++ .closeLine :: rest)).takeWhile (· ≠ .closeLine) =
          n.fragment :: row.held := by
        rw [List.takeWhile_cons_of_pos (by simp [LineNumber.fragment]), htake]
      rw [hskip, hfirst, PrintedLine.ofContent]
      show _ = (⟨around, row.line, n :: [], _⟩ : PrintedLine) :: _
      rw [← hnumbers]
      rfl

mutual

theorem linesIn_fragments : ∀ (box : Box) (around : List Div) (rest : List Fragment),
    linesIn around (box.fragments ++ rest) = box.lines around ++ linesIn around rest
  | .line row, around, rest => linesIn_row row around rest
  | .container div content, around, rest => by
    have hcontent := linesIn_fragmentsAll content (div :: around) (.closeDiv :: rest)
    rw [Box.fragments, List.cons_append, List.append_assoc]
    exact hcontent

theorem linesIn_fragmentsAll : ∀ (content : List Box) (around : List Div) (rest : List Fragment),
    linesIn around (Box.fragmentsAll content ++ rest) =
      Box.linesAll around content ++ linesIn around rest
  | [], _, _ => rfl
  | box :: more, around, rest => by
    have hbox := linesIn_fragments box around (Box.fragmentsAll more ++ rest)
    have hmore := linesIn_fragmentsAll more around rest
    rw [Box.fragmentsAll, List.append_assoc, hbox, hmore, Box.linesAll, List.append_assoc]

end

/-! ## The environments of the fragments of boxes -/

section Flat

variable {fragments : List Fragment} (h : containers fragments = [])
include h

theorem untilEnd_flat (opened : Nat) (rest : List Fragment) :
    untilEnd opened (fragments ++ rest) = fragments ++ untilEnd opened rest := by
  induction fragments with
  | nil => rfl
  | cons f fragments ih =>
      rw [containers_cons, List.append_eq_nil_iff] at h
      have ih := ih h.2
      cases f with
      | openDiv => cases h.1
      | closeDiv => cases h.1
      | _ => cases opened <;> exact congrArg _ ih

theorem environments_flat (rest : List Fragment) :
    environments (fragments ++ rest) = environments rest := by
  induction fragments with
  | nil => rfl
  | cons f fragments ih =>
      rw [containers_cons, List.append_eq_nil_iff] at h
      have ih := ih h.2
      cases f with
      | openDiv => cases h.1
      | _ => exact ih

end Flat

mutual

theorem untilEnd_fragments : ∀ (box : Box) (opened : Nat) (rest : List Fragment),
    untilEnd opened (box.fragments ++ rest) = box.fragments ++ untilEnd opened rest
  | .line row, opened, rest => untilEnd_flat (containers_row row) opened rest
  | .container div content, opened, rest => by
    have hcontent := untilEnd_fragmentsAll content (opened + 1) (.closeDiv :: rest)
    rw [Box.fragments, List.cons_append, List.append_assoc]
    show .openDiv div :: untilEnd (opened + 1) (Box.fragmentsAll content ++ .closeDiv :: rest) =
      .openDiv div :: (Box.fragmentsAll content ++ [.closeDiv] ++ untilEnd opened rest)
    rw [hcontent, List.append_assoc]
    rfl

theorem untilEnd_fragmentsAll : ∀ (content : List Box) (opened : Nat) (rest : List Fragment),
    untilEnd opened (Box.fragmentsAll content ++ rest) =
      Box.fragmentsAll content ++ untilEnd opened rest
  | [], _, _ => rfl
  | box :: more, opened, rest => by
    have hbox := untilEnd_fragments box opened (Box.fragmentsAll more ++ rest)
    have hmore := untilEnd_fragmentsAll more opened rest
    rw [Box.fragmentsAll, List.append_assoc, hbox, hmore, List.append_assoc]

end

mutual

theorem environments_fragments : ∀ (box : Box) (rest : List Fragment),
    environments (box.fragments ++ rest) =
      box.environments.map Box.fragmentsAll ++ environments rest
  | .line row, rest => environments_flat (containers_row row) rest
  | .container div content, rest => by
    have hcontent := environments_fragmentsAll content (.closeDiv :: rest)
    rw [Box.fragments, List.cons_append, List.append_assoc]
    cases div with
    | algorithmic numbered =>
        have hinside := untilEnd_fragmentsAll content 0 (.closeDiv :: rest)
        rw [untilEnd, List.append_nil] at hinside
        show untilEnd 0 (Box.fragmentsAll content ++ .closeDiv :: rest) ::
          environments (Box.fragmentsAll content ++ .closeDiv :: rest) = _
        rw [hinside, hcontent]
        rfl
    | _ => exact hcontent

theorem environments_fragmentsAll : ∀ (content : List Box) (rest : List Fragment),
    environments (Box.fragmentsAll content ++ rest) =
      (Box.environmentsAll content).map Box.fragmentsAll ++ environments rest
  | [], _ => rfl
  | box :: more, rest => by
    have hbox := environments_fragments box (Box.fragmentsAll more ++ rest)
    have hmore := environments_fragmentsAll more rest
    rw [Box.fragmentsAll, List.append_assoc, hbox, hmore, Box.environmentsAll, List.map_append,
      List.append_assoc]

end

/-! ## Joined text -/

theorem Row.printed_merge (row : Row) (around : List Div) :
    row.merge.printed around = row.printed around := by
  unfold printed merge
  rw [← Inline.merged_fragmentsAll, filterMap_merged fun _ => rfl]

mutual

theorem Box.lines_merge : ∀ (box : Box) (around : List Div),
    box.merge.lines around = box.lines around
  | .line row, around => congrArg (fun line => [line]) (row.printed_merge around)
  | .container div content, around => Box.linesAll_merge content (div :: around)

theorem Box.linesAll_merge : ∀ (content : List Box) (around : List Div),
    linesAll around (mergeAll content) = linesAll around content
  | [], _ => rfl
  | box :: rest, around => by
    rw [mergeAll, linesAll, Box.lines_merge box around, Box.linesAll_merge rest around, linesAll]

end

mutual

theorem Box.environments_merge : ∀ box : Box,
    box.merge.environments = box.environments.map mergeAll
  | .line row => rfl
  | .container div content => by
    have hcontent := Box.environmentsAll_merge content
    cases div with
    | algorithmic numbered => exact congrArg _ hcontent
    | _ => exact hcontent

theorem Box.environmentsAll_merge : ∀ content : List Box,
    environmentsAll (mergeAll content) = (environmentsAll content).map mergeAll
  | [] => rfl
  | box :: rest => by
    rw [mergeAll, environmentsAll, Box.environments_merge box, Box.environmentsAll_merge rest,
      environmentsAll, List.map_append]

end

/-- The lines of a box that is drawn. -/
theorem linesIn_merge (box : Box) (around : List Div) :
    linesIn around box.merge.fragments = box.lines around := by
  have hlines := linesIn_fragments box.merge around []
  rw [List.append_nil, Box.lines_merge] at hlines
  exact hlines.trans (List.append_nil _)

/-- The lines of boxes that are drawn. -/
theorem linesIn_mergeAll (content : List Box) (around : List Div) :
    linesIn around (Box.fragmentsAll (Box.mergeAll content)) = Box.linesAll around content := by
  have hlines := linesIn_fragmentsAll (Box.mergeAll content) around []
  rw [List.append_nil, Box.linesAll_merge] at hlines
  exact hlines.trans (List.append_nil _)

/-- The environments of a box that is drawn. -/
theorem environments_merge (box : Box) :
    environments box.merge.fragments =
      box.environments.map fun inner => Box.fragmentsAll (Box.mergeAll inner) := by
  have henvironments := environments_fragments box.merge []
  rw [List.append_nil, Box.environments_merge, List.map_map] at henvironments
  exact henvironments.trans (List.append_nil _)

end AlgoBox.Html
