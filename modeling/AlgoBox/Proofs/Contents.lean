import AlgoBox.Proofs.Displayed

/-!
# The contents of an output

What the lines of an output hold, one behind the other, whatever containers and lines it
is spread over (`Box.contentAll`). Marks put their content on a sheet in order, no matter
which of them start a line and which join one (`Sheet.contentAll_writeAll`). What is read
off content only can be read off the boxes as well (`Box.filterMap_fragmentsAll`).

The content of a document consists of the phrases that are displayed and of labels beside
them, which are keywords, names and running text (`Document.holdsWords`). Inside an
environment the keywords among the labels belong to a fixed vocabulary
(`statementLabels`).
-/

namespace AlgoBox

open Html Grammar

variable {α : Type}

namespace Html

/-! ## The content of boxes -/

mutual

/-- What the lines of a box hold. -/
def Box.content : Box → List Inline
  | .line row => row.content
  | .container _ inner => Box.contentAll inner

/-- What the lines of some boxes hold. -/
def Box.contentAll : List Box → List Inline
  | [] => []
  | box :: rest => box.content ++ Box.contentAll rest

end

theorem Box.contentAll_append (l m : List Box) :
    contentAll (l ++ m) = contentAll l ++ contentAll m := by
  induction l with
  | nil => rfl
  | cons box rest ih => simp only [List.cons_append, contentAll, ih, List.append_assoc]

theorem Box.contentAll_singleton (box : Box) : contentAll [box] = box.content :=
  List.append_nil _

mutual

/-- What a mark puts into lines. -/
def Mark.content : Mark → List Inline
  | .start content | .join content | .alone content => content
  | .inside _ marks => Mark.contentAll marks

/-- What some marks put into lines. -/
def Mark.contentAll : List Mark → List Inline
  | [] => []
  | mark :: rest => mark.content ++ Mark.contentAll rest

end

theorem Mark.contentAll_append (l m : List Mark) :
    contentAll (l ++ m) = contentAll l ++ contentAll m := by
  induction l with
  | nil => rfl
  | cons mark rest ih => simp only [List.cons_append, contentAll, ih, List.append_assoc]

theorem Mark.contentAll_singleton (mark : Mark) : contentAll [mark] = mark.content :=
  List.append_nil _

namespace Sheet

theorem contentAll_start (options : Options) (depth : Nat) (content : List Inline) (s : Sheet) :
    Box.contentAll (s.start options depth content).boxes = Box.contentAll s.boxes ++ content := by
  have hrow : (rowAt options depth s.count content).content = content := by
    unfold rowAt
    split <;> rfl
  show Box.contentAll (s.boxes ++ [.line (rowAt options depth s.count content)]) = _
  rw [Box.contentAll_append, Box.contentAll_singleton, Box.content, hrow]

theorem contentAll_add {s : Sheet} (h : s.row.isSome) (content : List Inline) :
    Box.contentAll (s.add content).boxes = Box.contentAll s.boxes ++ content := by
  obtain ⟨row, hrow⟩ := Option.isSome_iff_exists.1 h
  have hboxes : s.boxes = s.above ++ [.line row] := by
    unfold boxes
    rw [hrow]
    rfl
  have hadd : (s.add content).boxes = s.above ++ [.line (row.add content)] := by
    unfold boxes add
    rw [hrow]
    rfl
  rw [hboxes, hadd, Box.contentAll_append, Box.contentAll_append, Box.contentAll_singleton,
    Box.contentAll_singleton, List.append_assoc]
  rfl

mutual

theorem contentAll_write (options : Options) : ∀ (mark : Mark) (depth : Nat) (s : Sheet),
    Box.contentAll (s.write options depth mark).boxes = Box.contentAll s.boxes ++ mark.content
  | .start content, depth, s => contentAll_start options depth content s
  | .alone content, depth, s => by
    show Box.contentAll (s.start options depth content).close.boxes = _
    rw [boxes_close]
    exact contentAll_start options depth content s
  | .join content, depth, s => by
    show Box.contentAll (s.join options depth content).boxes = _
    unfold join
    split
    · rename_i hrow
      exact contentAll_add hrow content
    · exact contentAll_start options depth content s
  | .inside div marks, depth, s => by
    have hinner := contentAll_writeAll options marks (depth + div.blocks)
      { count := div.recount s.count }
    show Box.contentAll (s.contain div _).boxes = _
    rw [boxes_contain, Box.contentAll_append, Box.contentAll_singleton, Box.content, hinner]
    rfl

/-- Marks put what they hold below what a sheet holds already. -/
theorem contentAll_writeAll (options : Options) : ∀ (marks : List Mark) (depth : Nat) (s : Sheet),
    Box.contentAll (s.writeAll options depth marks).boxes =
      Box.contentAll s.boxes ++ Mark.contentAll marks
  | [], _, _ => (List.append_nil _).symm
  | mark :: rest, depth, s => by
    have hmark := contentAll_write options mark depth s
    have hrest := contentAll_writeAll options rest depth (s.write options depth mark)
    rw [writeAll, hrest, hmark, Mark.contentAll, List.append_assoc]

end

end Sheet

/-! ## Reading content off boxes -/

/-- The fragment is content of a line: no tag and no line number. -/
def Fragment.IsContent : Fragment → Prop
  | .keyword _ | .functionName _ | .math .. | .text _ => True
  | _ => False

/-- Something is read off content only. -/
def ReadsContent {β : Type} (read : Fragment → Option β) : Prop :=
  ∀ f, ¬f.IsContent → read f = none

section Reading

variable {β : Type} {read : Fragment → Option β}

theorem Inline.filterMap_stretch (h : ReadsContent read) (span : Span) (content : List Inline) :
    (Inline.stretch span content).fragments.filterMap read =
      (fragmentsAll content).filterMap read := by
  rw [fragments, List.filterMap_cons_none (h _ id), List.filterMap_append,
    List.filterMap_cons_none (h _ id)]
  exact List.append_nil _

theorem Row.filterMap_fragments (h : ReadsContent read) (row : Row) :
    row.fragments.filterMap read = (Inline.fragmentsAll row.content).filterMap read := by
  have hnumber : (row.number.toList.map LineNumber.fragment).filterMap read = [] := by
    refine List.filterMap_eq_nil_iff.2 fun f hf => ?_
    obtain ⟨number, -, rfl⟩ := List.mem_map.1 hf
    exact h _ id
  have hending : Row.ending.filterMap read = [] := by
    rw [ending, List.filterMap_cons_none (h _ id), List.filterMap_cons_none (h _ id)]
    rfl
  rw [fragments, opened, List.filterMap_append, hending, List.append_nil,
    List.filterMap_cons_none (h _ id), List.filterMap_append, hnumber,
    List.filterMap_cons_none (h _ id)]
  rfl

mutual

theorem Box.filterMap_fragments (h : ReadsContent read) : ∀ box : Box,
    box.fragments.filterMap read = (Inline.fragmentsAll box.content).filterMap read
  | .line row => row.filterMap_fragments h
  | .container _ inner => by
    have hinner := Box.filterMap_fragmentsAll h inner
    rw [fragments, List.filterMap_cons_none (h _ id), List.filterMap_append, hinner,
      List.filterMap_cons_none (h _ id)]
    exact List.append_nil _

/-- What is content is all in the lines. -/
theorem Box.filterMap_fragmentsAll (h : ReadsContent read) : ∀ boxes : List Box,
    (fragmentsAll boxes).filterMap read =
      (Inline.fragmentsAll (Box.contentAll boxes)).filterMap read
  | [] => rfl
  | box :: rest => by
    have hbox := Box.filterMap_fragments h box
    have hrest := Box.filterMap_fragmentsAll h rest
    rw [fragmentsAll, List.filterMap_append, hbox, hrest, contentAll,
      Inline.fragmentsAll_append, List.filterMap_append]

end

end Reading

/-! ## Phrases and labels -/

/-- The content shows these phrases in order, and beside them labels whose keywords are
of a given kind. A comment is a stretch of such content. -/
inductive HoldsWords (form : Form) (setup : Setup) (label : String → Prop) :
    List Inline → List (Phrase α) → Prop
  | nil : HoldsWords form setup label [] []
  | keyword {word : String} {content : List Inline} {words : List (Phrase α)} : label word →
      HoldsWords form setup label content words →
      HoldsWords form setup label (.keyword word :: content) words
  | functionName {name : String} {content : List Inline} {words : List (Phrase α)} :
      HoldsWords form setup label content words →
      HoldsWords form setup label (.functionName name :: content) words
  | text {markup : String} {content : List Inline} {words : List (Phrase α)} :
      HoldsWords form setup label content words →
      HoldsWords form setup label (.text markup :: content) words
  | phrase {phrase : Phrase α} {content : List Inline} {words : List (Phrase α)} :
      Words form phrase → HoldsWords form setup label content words →
      HoldsWords form setup label (phrase.inline setup :: content) (phrase :: words)
  | comment {inner content : List Inline} {words words' : List (Phrase α)} :
      HoldsWords form setup label inner words → HoldsWords form setup label content words' →
      HoldsWords form setup label (.stretch .comment inner :: content) (words ++ words')

namespace HoldsWords

variable {form : Form} {setup : Setup} {label label' : String → Prop}
  {content content' : List Inline} {words words' : List (Phrase α)}

theorem append (h : HoldsWords form setup label content words)
    (h' : HoldsWords form setup label content' words') :
    HoldsWords form setup label (content ++ content') (words ++ words') := by
  induction h with
  | nil => exact h'
  | keyword hword _ ih => exact .keyword hword ih
  | functionName _ ih => exact .functionName ih
  | text _ ih => exact .text ih
  | phrase hphrase _ ih => exact .phrase hphrase ih
  | comment hinner _ _ ih =>
      rw [List.append_assoc]
      exact .comment hinner ih

theorem mono (h : HoldsWords form setup label content words)
    (hlabel : ∀ word, label word → label' word) :
    HoldsWords form setup label' content words := by
  induction h with
  | nil => exact .nil
  | keyword hword _ ih => exact .keyword (hlabel _ hword) ih
  | functionName _ ih => exact .functionName ih
  | text _ ih => exact .text ih
  | phrase hphrase _ ih => exact .phrase hphrase ih
  | comment _ _ hinner ih => exact .comment hinner ih

/-- A keyword behind everything else. -/
theorem closed {word : String} (h : HoldsWords form setup label content words)
    (hword : label word) :
    HoldsWords form setup label (content ++ [.keyword word]) words := by
  have hlast : HoldsWords form setup label [.keyword word] ([] : List (Phrase α)) :=
    .keyword hword .nil
  have hall := h.append hlast
  rwa [List.append_nil] at hall

end HoldsWords

/-- The keywords that statements and preconditions are labelled with. -/
def statementLabels : List String :=
  ["if", "then", "else", "end if", "for", "while", "do", "end for", "end while", "function",
   "procedure", "end function", "end procedure", "print", "return", "Ensure:", "Require:"]

end Html

/-! ## The content of a tree -/

section Statements

variable {form : Form} {setup : Setup} {label : String → Prop}

/-- Content of some nodes, one behind the other. -/
theorem Html.HoldsWords.all {nodes : List (Node α)}
    (h : ∀ node ∈ nodes, HoldsWords form setup label (Mark.contentAll (node.marks setup))
      (node.phrases.map Prod.snd)) :
    HoldsWords form setup label (Mark.contentAll (Node.marksAll setup nodes))
      ((Node.phrasesAll nodes).map Prod.snd) := by
  induction nodes with
  | nil => exact .nil
  | cons node rest ih =>
      obtain ⟨hnode, hrest⟩ := List.forall_mem_cons.1 h
      rw [Node.marksAll, Mark.contentAll_append, Node.phrasesAll, List.map_append]
      exact hnode.append (ih hrest)

theorem Html.HoldsWords.body {body : Option (Node α)}
    (h : ∀ block ∈ body, HoldsWords form setup label (Mark.contentAll (block.marks setup))
      (block.phrases.map Prod.snd)) :
    HoldsWords form setup label (Mark.contentAll (Node.marksBody setup body))
      ((Node.phrasesBody body).map Prod.snd) := by
  cases body with
  | none => exact .nil
  | some block => exact h block rfl

theorem Html.HoldsWords.arms {arms : List (Branch α)}
    (h : ∀ arm ∈ arms, ∀ rest,
      HoldsWords form setup label (Mark.contentAll (Branch.marksAll setup rest))
        ((Branch.phrasesAll rest).map Prod.snd) →
      HoldsWords form setup label (Mark.contentAll (Branch.marksAll setup (arm :: rest)))
        ((Branch.phrasesAll (arm :: rest)).map Prod.snd)) :
    HoldsWords form setup label (Mark.contentAll (Branch.marksAll setup arms))
      ((Branch.phrasesAll arms).map Prod.snd) := by
  induction arms with
  | nil => exact .nil
  | cons arm rest ih =>
      obtain ⟨harm, hrest⟩ := List.forall_mem_cons.1 h
      exact harm rest (ih hrest)

/-- A command holds its label, if it has one, and its text. -/
theorem command_holdsWords {loc : α} {name : String} {words : Phrase α}
    (hname : name ∈ statementWords ++ preconditionWords) (hwords : Words form words) :
    HoldsWords form setup (· ∈ statementLabels)
      (Mark.contentAll ((Node.command loc name words).marks setup))
      ((Node.command loc name words).phrases.map Prod.snd) := by
  have hlabels : ∀ name ∈ statementWords ++ preconditionWords, ∀ label ∈ commandLabel? name,
      label ≠ "" → label ∈ statementLabels := by
    decide
  have hlast : HoldsWords form setup (· ∈ statementLabels) [words.inline setup] [words] :=
    .phrase hwords .nil
  rw [Node.marks, Mark.contentAll_singleton]
  show HoldsWords form setup _ (labelInlines name ++ [words.inline setup]) [words]
  unfold labelInlines
  cases hlabel : commandLabel? name with
  | none => exact hlast
  | some label =>
      dsimp only
      split
      · rename_i hne
        exact .keyword (hlabels name hname label hlabel hne) hlast
      · exact hlast

theorem applied_holdsWords {name : String} {args : Phrase α} (h : Words form args) :
    HoldsWords form setup label (applied setup name args) [args] :=
  .functionName (.text (.phrase h (.text .nil)))

mutual

theorem Statement.holdsWords {node : Node α} : Statement form node →
    HoldsWords form setup (· ∈ statementLabels) (Mark.contentAll (node.marks setup))
      (node.phrases.map Prod.snd)
  | .command hname hwords => command_holdsWords (List.mem_append_left _ hname) hwords
  | .comment hwords => .comment (.text (.phrase hwords .nil)) .nil
  | .call _ hargs => applied_holdsWords hargs
  | .conditional _ harms helse hnone => by
    have harms := HoldsWords.arms fun arm harm => (harms arm harm).holdsWords
    have helse := HoldsWords.body fun block hblock => (helse block hblock).holdsWords
    rw [Node.marks, Mark.contentAll_append, Mark.contentAll_append, ← List.append_assoc]
    have hlast : "end if" ∈ statementLabels := by decide
    refine HoldsWords.closed ?_ hlast
    rw [Node.phrases, List.map_append]
    refine harms.append ?_
    split
    · exact .keyword (by decide) helse
    · rename_i hasElse
      rw [hnone (Bool.eq_false_iff.2 hasElse)]
      exact .nil
  | .loop hkeyword hcond hbody => by
    have hlabels : ∀ keyword ∈ loopWords, Text.lower keyword ∈ statementLabels ∧
        "end " ++ Text.lower keyword ∈ statementLabels := by
      decide +kernel
    have hbody := HoldsWords.body fun block hblock => (hbody block hblock).holdsWords
    obtain ⟨hfirst, hlast⟩ := hlabels _ hkeyword
    rw [Node.marks, Mark.contentAll, Mark.contentAll_append, Mark.contentAll_singleton]
    exact .keyword hfirst (.phrase hcond (.keyword (by decide) (hbody.closed hlast)))
  | .function hkind _ hparams hbody => by
    have hlabels : ∀ kind ∈ functionWords, Text.lower kind ∈ statementLabels ∧
        "end " ++ Text.lower kind ∈ statementLabels := by
      decide +kernel
    have hbody := HoldsWords.body fun block hblock => (hbody block hblock).holdsWords
    obtain ⟨hfirst, hlast⟩ := hlabels _ hkind
    rw [Node.marks, Mark.contentAll, Mark.contentAll_append, Mark.contentAll_singleton]
    exact .keyword hfirst ((applied_holdsWords hparams).append (hbody.closed hlast))

theorem Block.holdsWords {node : Node α} : Block form node →
    HoldsWords form setup (· ∈ statementLabels) (Mark.contentAll (node.marks setup))
      (node.phrases.map Prod.snd)
  | .mk hchildren _ => by
    have hchildren := HoldsWords.all fun node hnode => (hchildren node hnode).holdsWords
    rw [Node.marks, Mark.contentAll_singleton]
    exact hchildren

theorem Arm.holdsWords {arm : Branch α} : Arm form arm → ∀ rest,
    HoldsWords form setup (· ∈ statementLabels) (Mark.contentAll (Branch.marksAll setup rest))
      ((Branch.phrasesAll rest).map Prod.snd) →
    HoldsWords form setup (· ∈ statementLabels)
      (Mark.contentAll (Branch.marksAll setup (arm :: rest)))
      ((Branch.phrasesAll (arm :: rest)).map Prod.snd)
  | .mk hcond hbody, rest, hrest => by
    have hbody := HoldsWords.body fun block hblock => (hbody block hblock).holdsWords
    have hinside := hbody.append hrest
    rw [Branch.marksAll, Mark.contentAll, Mark.contentAll_append, Branch.phrasesAll,
      Branch.phrases, List.map_append, List.map_cons]
    exact .keyword (by decide) (.phrase hcond (.keyword (by decide) hinside))

end

theorem Section.holdsWords {node : Node α} (h : Section form node) :
    HoldsWords form setup (· ∈ statementLabels) (Mark.contentAll (node.marks setup))
      (node.phrases.map Prod.snd) := by
  cases h with
  | precondition hname hwords => exact command_holdsWords (List.mem_append_right _ hname) hwords
  | block hblock => exact hblock.holdsWords

theorem Algorithmic.holdsWords {node : Node α} (h : Algorithmic form node) :
    HoldsWords form setup (· ∈ statementLabels) (Mark.contentAll (node.marks setup))
      (node.phrases.map Prod.snd) := by
  obtain ⟨hchildren, -⟩ := h
  rw [Node.marks, Mark.contentAll_singleton]
  exact HoldsWords.all fun child hchild => (hchildren child hchild).holdsWords

/-- The parts of an algorithm without its captions. -/
theorem Part.holdsWords {parts : List (Node α)} (h : ∀ part ∈ parts, Part form part) :
    HoldsWords form setup (· ∈ statementLabels)
      (Mark.contentAll (Node.marksAll setup parts))
      ((Node.phrasesAll (parts.filter (!·.isCaption))).map Prod.snd) := by
  induction parts with
  | nil => exact .nil
  | cons part rest ih =>
      obtain ⟨hpart, hrest⟩ := List.forall_mem_cons.1 h
      cases hpart with
      | caption => exact ih hrest
      | algorithmic halgorithmic =>
          have hpart : HoldsWords form setup (· ∈ statementLabels) _ _ := halgorithmic.holdsWords
          obtain ⟨_, _⟩ := halgorithmic
          rw [Node.marksAll, Mark.contentAll_append, List.filter_cons_of_pos rfl,
            Node.phrasesAll, List.map_append]
          exact hpart.append (ih hrest)

/-- The text of a caption. -/
theorem Part.words_lastCaption {parts : List (Node α)} (h : ∀ part ∈ parts, Part form part)
    {words : Phrase α} (hlast : lastCaption? parts = some words) : Words form words := by
  rcases lastCaption?_cases parts with ⟨hnone, -⟩ | ⟨loc, words', hsome, hfind⟩
  · rw [hnone] at hlast
    cases hlast
  · obtain rfl : words' = words := Option.some.inj (hsome.symm.trans hlast)
    have hmem := List.mem_reverse.1 (List.mem_of_find?_eq_some hfind)
    cases h _ hmem with
    | caption hwords => exact hwords
    | algorithmic halgorithmic => cases halgorithmic

theorem Environment.holdsWords {node : Node α} (h : Environment form node) (captions : Nat) :
    HoldsWords form setup (fun _ => True)
      (Mark.contentAll (node.environmentMarks setup captions))
      (node.displayedEnvironment.phrases.map Prod.snd) := by
  cases h with
  | algorithmic halgorithmic =>
      have hwords : HoldsWords form setup (· ∈ statementLabels) _ _ := halgorithmic.holdsWords
      obtain ⟨_, _⟩ := halgorithmic
      exact hwords.mono fun _ _ => trivial
  | @algorithm loc parts hparts =>
      have hrest : HoldsWords form setup (fun _ => True) _ _ :=
        (Part.holdsWords hparts).mono fun _ _ => trivial
      have hlast : ∀ words, lastCaption? parts = some words → Words form words :=
        fun words => Part.words_lastCaption hparts
      rw [Node.environmentMarks, Mark.contentAll_singleton, Mark.content, Mark.contentAll_append,
        Node.displayedEnvironment, Node.phrases, Node.displayedParts]
      unfold captionMarks
      rcases lastCaption?_cases parts with ⟨hnone, hfind⟩ | ⟨loc, words, hsome, hfind⟩
      · rw [hnone, hfind]
        exact hrest
      · rw [hsome, hfind]
        exact .keyword trivial (.phrase (hlast words hsome) hrest)

theorem Environment.holdsWords_all {nodes : List (Node α)}
    (h : ∀ node ∈ nodes, Environment form node) (captions : Nat) :
    HoldsWords form setup (fun _ => True)
      (Mark.contentAll (Node.environmentsMarks setup captions nodes))
      ((Node.phrasesAll (nodes.map Node.displayedEnvironment)).map Prod.snd) := by
  induction nodes generalizing captions with
  | nil => exact .nil
  | cons node rest ih =>
      obtain ⟨hnode, hrest⟩ := List.forall_mem_cons.1 h
      rw [Node.environmentsMarks, Mark.contentAll_append, List.map_cons, Node.phrasesAll,
        List.map_append]
      exact (hnode.holdsWords captions).append (ih hrest _)

/-- A document holds the phrases that are displayed of it, and labels. -/
theorem Document.holdsWords {tree : Node α} (h : Document form tree) (setup : Setup) :
    HoldsWords form setup (fun _ => True) (Box.contentAll (tree.layout setup))
      tree.displayedWords := by
  obtain ⟨henvironments⟩ := h
  unfold Node.layout
  rw [Sheet.contentAll_writeAll]
  exact Environment.holdsWords_all henvironments 0

end Statements

end AlgoBox
