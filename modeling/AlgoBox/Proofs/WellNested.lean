import AlgoBox.Proofs.Drawing
import AlgoBox.Proofs.Lines
import AlgoBox.Proofs.RenderTotal

/-!
# The output is well nested

Taken apart into tags (`Fragment.tags`), the output of a source is a properly
nested document (`wellNested_of_parse`): every end tag closes the element that was
opened last, every element is closed, lines stand directly inside containers and
never inside one another, and everything that is shown stands inside exactly one
line. The containers are those of the tree, nested in the same way
(`Node.containers`).

A box is nested by construction, so the proof is about boxes only: it follows their
shape, not the order in which a page is written.
-/

namespace AlgoBox

open Html Grammar

variable {α : Type}

/-! ## Tags -/

namespace Html

/-- An element of the output: a container, a line, or a stretch of a line. -/
inductive Element where
  | div
  | line
  | span
deriving DecidableEq

/-- The name of an element. -/
def Element.name : Element → String
  | div => "div"
  | line => "p"
  | span => "span"

/-- A start tag, an end tag, or something that opens and closes nothing. -/
inductive Tag where
  | opens (element : Element) (attributes : String)
  | closes (element : Element)
  | piece (markup : String)

/-- The markup of a tag. -/
def Tag.markup : Tag → String
  | opens element attributes => "<" ++ element.name ++ attributes ++ ">"
  | closes element => "</" ++ element.name ++ ">"
  | piece markup => markup

/-- The attributes of a container. -/
def Div.attributes : Div → String
  | document => " class=\"pseudo\""
  | algorithm captioned =>
    " class=\"ps-algorithm" ++ (if captioned then " with-caption" else "") ++ "\""
  | algorithmic numbered =>
    " class=\"ps-algorithmic" ++ (if numbered then " with-linenum" else "") ++ "\""
  | block margin => " class=\"ps-block ps-outer-block\" style=\"margin-left:" ++ margin ++ "em;\""

/-- The attributes of a line. -/
def Line.attributes : Line → String
  | code => " class=\"ps-line ps-code\""
  | hanging indent =>
    " class=\"ps-line\" style=\"text-indent:-" ++ indent ++ "em;padding-left:" ++ indent ++ "em;\""

/-- The attributes of a stretch of a line. -/
def Span.attributes : Span → String
  | content => " class=\"ps-line-content\""
  | comment => " class=\"ps-comment\""
  | phrase => ""
  | font name => " class=\"ps-font-" ++ name ++ "\""
  | size name => " class=\"ps-size-" ++ name ++ "\""

/-- The tags of a fragment. Keywords, names and numbers have stretches of their own. -/
def Fragment.tags : Fragment → List Tag
  | openDiv div => [.opens .div div.attributes]
  | closeDiv => [.closes .div]
  | openLine line => [.opens .line line.attributes]
  | closeLine => [.closes .line]
  | openSpan span => [.opens .span span.attributes]
  | closeSpan => [.closes .span]
  | lineNumber offset number punc =>
    [.opens .span (" class=\"ps-linenum\" style=\"left:-" ++ offset ++ "em;\""),
      .piece (toString number ++ punc), .closes .span]
  | keyword word =>
    [.opens .span " class=\"ps-keyword\"", .piece (Text.escape word), .closes .span]
  | functionName name =>
    [.opens .span " class=\"ps-funcname\"", .piece (Text.escape name), .closes .span]
  | math _ markup => [.piece markup]
  | text markup => [.piece markup]

/-- The tags of a sequence of fragments. -/
def tagsAll (fragments : List Fragment) : List Tag := fragments.flatMap Fragment.tags

theorem Div.tag_eq (div : Div) : div.tag = (Tag.opens .div div.attributes).markup := by
  rw [← String.toList_inj]
  unfold Div.tag Div.attributes Tag.markup Element.name
  cases div <;> simp only [String.toList_append] <;> simp

theorem Line.tag_eq (line : Line) : line.tag = (Tag.opens .line line.attributes).markup := by
  rw [← String.toList_inj]
  unfold Line.tag Line.attributes Tag.markup Element.name
  cases line <;> simp only [String.toList_append] <;> simp

theorem Span.tag_eq (span : Span) : span.tag = (Tag.opens .span span.attributes).markup := by
  rw [← String.toList_inj]
  unfold Span.tag Span.attributes Tag.markup Element.name
  cases span <;> simp only [String.toList_append] <;> simp

/-- The markup of a fragment is that of its tags. -/
theorem Fragment.markup_eq_tags (f : Fragment) :
    f.markup = String.join (f.tags.map Tag.markup) := by
  cases f with
  | openDiv div =>
      show div.tag = String.join [(Tag.opens .div div.attributes).markup]
      rw [String.join_cons, String.join_nil, String.append_empty, Div.tag_eq]
  | openLine line =>
      show line.tag = String.join [(Tag.opens .line line.attributes).markup]
      rw [String.join_cons, String.join_nil, String.append_empty, Line.tag_eq]
  | openSpan span =>
      show span.tag = String.join [(Tag.opens .span span.attributes).markup]
      rw [String.join_cons, String.join_nil, String.append_empty, Span.tag_eq]
  | _ =>
      rw [← String.toList_inj, String.toList_join]
      unfold markup Fragment.tags Tag.markup Element.name
      simp [String.toList_append]

/-! ## Nesting -/

/-- A tag may stand inside these elements, the innermost one first: an end tag
closes the innermost element, a line stands directly inside a container, no line or
container stands inside a line, and everything else stands inside exactly one line. -/
def Tag.Fits (around : List Element) : Tag → Prop
  | opens .div _ => Element.line ∉ around
  | opens .line _ => around.head? = some .div ∧ Element.line ∉ around
  | opens .span _ | piece _ => around.count .line = 1
  | closes element => around.head? = some element

/-- The elements around what follows a tag. -/
def Tag.behind (around : List Element) : Tag → List Element
  | opens element _ => element :: around
  | closes _ => around.tail
  | piece _ => around

/-- Tags inside some elements are properly nested, and close these elements. -/
def WellNested : List Element → List Tag → Prop
  | around, [] => around = []
  | around, tag :: rest => tag.Fits around ∧ WellNested (tag.behind around) rest

variable {around : List Element} {rest : List Tag}

theorem tagsAll_cons (f : Fragment) (fragments : List Fragment) :
    tagsAll (f :: fragments) = f.tags ++ tagsAll fragments :=
  List.flatMap_cons

theorem tagsAll_append (l m : List Fragment) : tagsAll (l ++ m) = tagsAll l ++ tagsAll m :=
  List.flatMap_append

/-- Something shown in a stretch of its own, like a keyword. -/
theorem WellNested.labelled {attributes markup : String} (hline : around.count .line = 1)
    (h : WellNested around rest) :
    WellNested around (.opens .span attributes :: .piece markup :: .closes .span :: rest) := by
  refine ⟨hline, ?_, rfl, h⟩
  show (Element.span :: around).count .line = 1
  simpa using hline

mutual

theorem WellNested.inline : ∀ (piece : Inline) {around : List Element} {rest : List Tag},
    around.count .line = 1 → WellNested around rest →
      WellNested around (tagsAll piece.fragments ++ rest)
  | .text _, _, _, hline, h | .math .., _, _, hline, h => ⟨hline, h⟩
  | .keyword _, _, _, hline, h | .functionName _, _, _, hline, h => h.labelled hline
  | .stretch span content, around, rest, hline, h => by
    have hinside : (Element.span :: around).count .line = 1 := by simpa using hline
    have hclosed : WellNested (.span :: around) (.closes .span :: rest) := ⟨rfl, h⟩
    have hcontent := WellNested.inlines content hinside hclosed
    rw [Inline.fragments, tagsAll_cons, tagsAll_append, List.append_assoc, List.append_assoc]
    exact ⟨hline, hcontent⟩

theorem WellNested.inlines : ∀ (content : List Inline) {around : List Element} {rest : List Tag},
    around.count .line = 1 → WellNested around rest →
      WellNested around (tagsAll (Inline.fragmentsAll content) ++ rest)
  | [], _, _, _, h => h
  | piece :: more, around, rest, hline, h => by
    have hmore := WellNested.inlines more hline h
    have hpiece := WellNested.inline piece hline hmore
    rw [Inline.fragmentsAll, tagsAll_append, List.append_assoc]
    exact hpiece

end

theorem WellNested.row (row : Row) (hdiv : around.head? = some .div) (hline : .line ∉ around)
    (h : WellNested around rest) : WellNested around (tagsAll row.fragments ++ rest) := by
  have hinside : (Element.line :: around).count .line = 1 := by
    rw [List.count_cons_self, List.count_eq_zero_of_not_mem hline]
  have hcontent : (Element.span :: .line :: around).count .line = 1 := by
    rw [List.count_cons_of_ne (by decide), hinside]
  have hclosed : WellNested (.span :: .line :: around) (.closes .span :: .closes .line :: rest) :=
    ⟨rfl, rfl, h⟩
  have hopened : WellNested (.line :: around) (.opens .span Span.content.attributes ::
      (tagsAll (Inline.fragmentsAll row.content) ++ .closes .span :: .closes .line :: rest)) :=
    ⟨hinside, WellNested.inlines row.content hcontent hclosed⟩
  have hrow : tagsAll row.fragments ++ rest = .opens .line row.line.attributes ::
      (tagsAll (row.number.toList.map LineNumber.fragment) ++
        .opens .span Span.content.attributes ::
          (tagsAll (Inline.fragmentsAll row.content) ++ .closes .span :: .closes .line :: rest)) := by
    simp only [Row.fragments, Row.opened, Row.ending, tagsAll_cons, tagsAll_append,
      List.append_assoc, List.cons_append]
    rfl
  rw [hrow]
  refine ⟨⟨hdiv, hline⟩, ?_⟩
  cases row.number with
  | none => exact hopened
  | some number => exact hopened.labelled hinside

mutual

theorem WellNested.box : ∀ (box : Box) {around : List Element} {rest : List Tag},
    (∀ row, box = .line row → around.head? = some .div) → .line ∉ around →
      WellNested around rest → WellNested around (tagsAll box.fragments ++ rest)
  | .line row, _, _, hdiv, hline, h => h.row row (hdiv row rfl) hline
  | .container div content, around, rest, _, hline, h => by
    have hinside : Element.line ∉ Element.div :: around := by simpa using hline
    have hclosed : WellNested (.div :: around) (.closes .div :: rest) := ⟨rfl, h⟩
    have hcontent := WellNested.boxes content rfl hinside hclosed
    rw [Box.fragments, tagsAll_cons, tagsAll_append, List.append_assoc, List.append_assoc]
    exact ⟨hline, hcontent⟩

theorem WellNested.boxes : ∀ (content : List Box) {around : List Element} {rest : List Tag},
    around.head? = some .div → .line ∉ around → WellNested around rest →
      WellNested around (tagsAll (Box.fragmentsAll content) ++ rest)
  | [], _, _, _, _, h => h
  | box :: more, around, rest, hdiv, hline, h => by
    have hmore := WellNested.boxes more hdiv hline h
    have hbox := WellNested.box box (fun _ _ => hdiv) hline hmore
    rw [Box.fragmentsAll, tagsAll_append, List.append_assoc]
    exact hbox

end

/-! ## Containers -/

/-- A container around others. -/
def bracketed (div : Div) (inner : List (Option Div)) : List (Option Div) :=
  some div :: (inner ++ [none])

/-- The containers in some boxes. -/
def Box.containers (content : List Box) : List (Option Div) :=
  Html.containers (Box.fragmentsAll content)

theorem Box.containers_append (l m : List Box) :
    containers (l ++ m) = containers l ++ containers m := by
  unfold containers
  rw [fragmentsAll_append, Html.containers_append]

theorem Box.containers_container (div : Div) (content : List Box) :
    containers [.container div content] = bracketed div (containers content) := by
  unfold containers
  rw [fragmentsAll_singleton, fragments, containers_cons, Html.containers_append]
  rfl

/-- Lines are no containers. -/
theorem Sheet.containers_boxes (s : Sheet) : Box.containers s.boxes = Box.containers s.above := by
  unfold boxes
  rw [Box.containers_append]
  cases s.row with
  | none => exact List.append_nil _
  | some row =>
      have hrow : Box.containers [.line row] = [] := by
        unfold Box.containers
        rw [Box.fragmentsAll_singleton]
        exact containers_row row
      exact (congrArg _ hrow).trans (List.append_nil _)

mutual

/-- The containers that a mark asks for. -/
def Mark.containers : Mark → List (Option Div)
  | .inside div marks => bracketed div (Mark.containersAll marks)
  | .start _ | .join _ | .alone _ => []

/-- The containers that some marks ask for. -/
def Mark.containersAll : List Mark → List (Option Div)
  | [] => []
  | mark :: rest => mark.containers ++ Mark.containersAll rest

end

theorem Mark.containersAll_append (l m : List Mark) :
    containersAll (l ++ m) = containersAll l ++ containersAll m := by
  induction l with
  | nil => rfl
  | cons mark rest ih => simp only [List.cons_append, containersAll, ih, List.append_assoc]

mutual

theorem Sheet.containers_write (options : Options) : ∀ (mark : Mark) (depth : Nat) (s : Sheet),
    Box.containers (s.write options depth mark).boxes =
      Box.containers s.boxes ++ mark.containers
  | .start content, depth, s => by
    rw [containers_boxes]
    exact (List.append_nil _).symm
  | .alone content, depth, s => by
    show Box.containers (s.start options depth content).close.boxes = _
    rw [boxes_close, containers_boxes]
    exact (List.append_nil _).symm
  | .join content, depth, s => by
    rw [containers_boxes]
    show Box.containers (s.join options depth content).above = _ ++ []
    rw [List.append_nil]
    unfold join
    split
    · exact (containers_boxes s).symm
    · rfl
  | .inside div marks, depth, s => by
    have hinner := Sheet.containers_writeAll options marks (depth + div.blocks)
      { count := div.recount s.count }
    rw [containers_boxes]
    show Box.containers (s.boxes ++ [.container div (writeAll options (depth + div.blocks)
      { count := div.recount s.count } marks).boxes]) = _
    rw [Box.containers_append, Box.containers_container, hinner]
    rfl

theorem Sheet.containers_writeAll (options : Options) :
    ∀ (marks : List Mark) (depth : Nat) (s : Sheet),
    Box.containers (s.writeAll options depth marks).boxes =
      Box.containers s.boxes ++ Mark.containersAll marks
  | [], _, _ => (List.append_nil _).symm
  | mark :: rest, depth, s => by
    have hmark := Sheet.containers_write options mark depth s
    have hrest := Sheet.containers_writeAll options rest depth (s.write options depth mark)
    rw [writeAll, hrest, hmark, Mark.containersAll, List.append_assoc]

end

end Html

/-! ## The containers of a tree -/

mutual

/-- The containers that a tree asks for: one for the document, for each environment
and for each block, nested as these are. -/
def Node.containers (options : Options) : Node α → List (Option Div)
  | .root _ children => bracketed .document (Node.containersAll options children)
  | .algorithm _ children =>
    bracketed (.algorithm (children.any Node.isCaption)) (Node.containersAll options children)
  | .algorithmic _ children =>
    bracketed (.algorithmic options.lineNumber.isTrue) (Node.containersAll options children)
  | .block _ children =>
    bracketed (.block (Em.format options.indent.toBinary64)) (Node.containersAll options children)
  | .conditional _ branches _ elseBody =>
    Branch.containersAll options branches ++ Node.containersBody options elseBody
  | .loop _ _ _ body | .function _ _ _ _ body => Node.containersBody options body
  | .bare _ | .text _ | .caption .. | .comment .. | .command .. | .call .. | .branch _
  | .leaf .. => []

/-- The containers that some nodes ask for. -/
def Node.containersAll (options : Options) : List (Node α) → List (Option Div)
  | [] => []
  | node :: rest => node.containers options ++ Node.containersAll options rest

/-- The containers that some arms ask for. -/
def Branch.containersAll (options : Options) : List (Branch α) → List (Option Div)
  | [] => []
  | .mk _ _ body :: rest =>
    Node.containersBody options body ++ Branch.containersAll options rest

/-- The containers that a body asks for. -/
def Node.containersBody (options : Options) : Option (Node α) → List (Option Div)
  | none => []
  | some node => node.containers options

end

section Marks

variable {form : Form} (setup : Setup)

theorem containersAll_marksAll {nodes : List (Node α)}
    (h : ∀ node ∈ nodes,
      Mark.containersAll (node.marks setup) = node.containers setup.options) :
    Mark.containersAll (Node.marksAll setup nodes) =
      Node.containersAll setup.options nodes := by
  induction nodes with
  | nil => rfl
  | cons node rest ih =>
      obtain ⟨hnode, hrest⟩ := List.forall_mem_cons.1 h
      rw [Node.marksAll, Mark.containersAll_append, hnode, ih hrest, Node.containersAll]

theorem containersAll_marksBody {body : Option (Node α)}
    (h : ∀ block ∈ body,
      Mark.containersAll (block.marks setup) = block.containers setup.options) :
    Mark.containersAll (Node.marksBody setup body) =
      Node.containersBody setup.options body := by
  cases body with
  | none => rfl
  | some block => exact h block rfl

theorem containersAll_marksArms {arms : List (Branch α)}
    (h : ∀ arm ∈ arms, ∀ rest,
      Mark.containersAll (Branch.marksAll setup rest) = Branch.containersAll setup.options rest →
      Mark.containersAll (Branch.marksAll setup (arm :: rest)) =
        Branch.containersAll setup.options (arm :: rest)) :
    Mark.containersAll (Branch.marksAll setup arms) = Branch.containersAll setup.options arms := by
  induction arms with
  | nil => rfl
  | cons arm rest ih =>
      obtain ⟨harm, hrest⟩ := List.forall_mem_cons.1 h
      exact harm rest (ih hrest)

theorem containersAll_inside (div : Div) (marks : List Mark) :
    Mark.containersAll [.inside div marks] = bracketed div (Mark.containersAll marks) :=
  List.append_nil _

mutual

theorem Statement.containers_marks {node : Node α} : Statement form node →
    Mark.containersAll (node.marks setup) = node.containers setup.options
  | .command .. | .comment _ | .call .. => rfl
  | .conditional _ harms helse hnone => by
    have harms := containersAll_marksArms setup fun arm harm => (harms arm harm).containers_marks
    have helse := containersAll_marksBody setup fun block hblock =>
      (helse block hblock).containers_marks
    rw [Node.marks, Mark.containersAll_append, Mark.containersAll_append, harms, Node.containers]
    refine congrArg _ ((List.append_nil _).trans ?_)
    split
    · exact helse
    · next hasElse =>
      rw [hnone (Bool.eq_false_iff.2 hasElse)]
      rfl
  | .loop _ _ hbody => by
    have hbody := containersAll_marksBody setup fun block hblock =>
      (hbody block hblock).containers_marks
    rw [Node.marks, Mark.containersAll, Mark.containersAll_append, hbody]
    exact List.append_nil _
  | .function _ _ _ hbody => by
    have hbody := containersAll_marksBody setup fun block hblock =>
      (hbody block hblock).containers_marks
    rw [Node.marks, Mark.containersAll, Mark.containersAll_append, hbody]
    exact List.append_nil _

theorem Block.containers_marks {node : Node α} : Block form node →
    Mark.containersAll (node.marks setup) = node.containers setup.options
  | .mk hchildren _ => by
    have hchildren := containersAll_marksAll setup fun node hnode =>
      (hchildren node hnode).containers_marks
    rw [Node.marks, containersAll_inside, hchildren, Node.containers]

theorem Arm.containers_marks {arm : Branch α} : Arm form arm → ∀ rest,
    Mark.containersAll (Branch.marksAll setup rest) = Branch.containersAll setup.options rest →
    Mark.containersAll (Branch.marksAll setup (arm :: rest)) =
      Branch.containersAll setup.options (arm :: rest)
  | .mk _ hbody, rest, hrest => by
    have hbody := containersAll_marksBody setup fun block hblock =>
      (hbody block hblock).containers_marks
    rw [Branch.marksAll, Mark.containersAll, Mark.containersAll_append, hbody, hrest]
    rfl

end

theorem Section.containers_marks {node : Node α} (h : Section form node) :
    Mark.containersAll (node.marks setup) = node.containers setup.options := by
  cases h with
  | precondition => rfl
  | block hblock => exact hblock.containers_marks setup

theorem Algorithmic.containers_marks {node : Node α} (h : Algorithmic form node) :
    Mark.containersAll (node.marks setup) = node.containers setup.options := by
  obtain ⟨hchildren, -⟩ := h
  have hall := containersAll_marksAll setup fun child hchild =>
    (hchildren child hchild).containers_marks setup
  rw [Node.marks, containersAll_inside, hall, Node.containers]

theorem Part.containers_marks {node : Node α} (h : Part form node) :
    Mark.containersAll (node.marks setup) = node.containers setup.options := by
  cases h with
  | caption => rfl
  | algorithmic halgorithmic => exact halgorithmic.containers_marks setup

theorem containersAll_captionMarks (number : Nat) (nodes : List (Node α)) :
    Mark.containersAll (captionMarks setup number nodes) = [] := by
  unfold captionMarks
  cases lastCaption? nodes <;> rfl

theorem Environment.containers_marks {node : Node α} (h : Environment form node)
    (captions : Nat) :
    Mark.containersAll (node.environmentMarks setup captions) =
      node.containers setup.options := by
  cases h with
  | algorithm hparts =>
      have hall := containersAll_marksAll setup fun part hpart =>
        (hparts part hpart).containers_marks setup
      rw [Node.environmentMarks, containersAll_inside, Mark.containersAll_append,
        containersAll_captionMarks, hall, List.nil_append, Node.containers]
  | algorithmic halgorithmic =>
      have hmarks := halgorithmic.containers_marks setup
      obtain ⟨_, _⟩ := halgorithmic
      exact hmarks

theorem Environment.containers_all {nodes : List (Node α)}
    (h : ∀ node ∈ nodes, Environment form node) (captions : Nat) :
    Mark.containersAll (Node.environmentsMarks setup captions nodes) =
      Node.containersAll setup.options nodes := by
  induction nodes generalizing captions with
  | nil => rfl
  | cons node rest ih =>
      obtain ⟨hnode, hrest⟩ := List.forall_mem_cons.1 h
      rw [Node.environmentsMarks, Mark.containersAll_append,
        hnode.containers_marks setup captions, ih hrest, Node.containersAll]

theorem Document.containers_layout {tree : Node α} (h : Document form tree) :
    Box.containers [.container .document (tree.layout setup)] =
      tree.containers setup.options := by
  obtain ⟨henvironments⟩ := h
  have hall := Environment.containers_all setup henvironments 0
  rw [Box.containers_container, Node.layout, Sheet.containers_writeAll, Node.children, hall]
  rfl

end Marks

/-! ## Sources -/

/-- What a source is read as is rendered, fragment by fragment, to the tags of a properly
nested document. Its containers are the environments and blocks of the tree, nested as
they are. The markup of formulas is taken as it comes. -/
theorem wellNested_of_parse {source : String} {tree : Node Source.Location} {setup : Setup}
    (hparse : parse source = .ok tree) (hsymbol : ∃ s, setup.options.commentSymbol = .text s)
    (hpunc : ∃ s, setup.options.lineNumberPunc = .text s) :
    (tree.rendering setup).markup = .ok ((Text.Pieces.ofList
      ((tree.rendering setup).page.fragments.toList.map fun fragment =>
        String.join (fragment.tags.map Tag.markup))).join "\n") ∧
    WellNested [] (tagsAll (tree.rendering setup).page.fragments.toList) ∧
    containers (tree.rendering setup).page.fragments.toList = tree.containers setup.options := by
  have hnormal := normal_of_parse hparse
  have : setup.options.Textual := ⟨hsymbol, hpunc⟩
  have hfault := hnormal.fault_eq_none setup
  have hfragments := hnormal.rendering_fragments setup hfault
  have hnest := hnormal.containers_layout setup
  refine ⟨?_, ?_, ?_⟩
  · unfold Rendering.markup
    rw [hfault]
    show Except.ok (Fragment.join _) = _
    rw [Fragment.join, funext Fragment.markup_eq_tags]
  · rw [hfragments, ← List.append_nil (tagsAll _)]
    exact WellNested.box _ (fun row h => by cases h) List.not_mem_nil rfl
  · rw [hfragments, ← Box.merged_fragments, containers, filterMap_merged fun _ => rfl]
    rw [Box.containers, Box.fragmentsAll_singleton] at hnest
    exact hnest

/-- A loop with a comment behind it: its block stands in the block around it, and both
are closed in front of the end of the environment. -/
theorem wellNested_comment_behind_loop :
    let source := "\\begin{algorithmic}\\FOR{$x$}\\STATE a\\ENDFOR\\COMMENT{b}\\end{algorithmic}"
    ∃ tree, parse source = .ok tree ∧
      WellNested [] (tagsAll (tree.rendering ⟨.default, delimited⟩).page.fragments.toList) ∧
      containers (tree.rendering ⟨.default, delimited⟩).page.fragments.toList =
        [some .document, some (.algorithmic false), some (.block "1.4"), some (.block "1.4"), none,
          none, none, none] := by
  intro source
  have hcontainers : (parse source).toOption.map (Node.containers Options.default) =
      some [some .document, some (.algorithmic false), some (.block "1.4"), some (.block "1.4"),
        none, none, none, none] := by
    decide +kernel
  cases htree : parse source with
  | error fault =>
      rw [htree] at hcontainers
      cases hcontainers
  | ok tree =>
      rw [htree] at hcontainers
      have h := @wellNested_of_parse source tree ⟨.default, delimited⟩ htree ⟨_, rfl⟩ ⟨_, rfl⟩
      exact ⟨tree, rfl, h.2.1, h.2.2.trans (Option.some.inj hcontainers)⟩

end AlgoBox
