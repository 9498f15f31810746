import AlgoBox.Proofs.Drawing
import AlgoBox.Proofs.RenderTotal
import Mathlib.Algebra.GroupWithZero.Nat

/-!
# Environments are rendered independently

A document is rendered by rendering each of its environments on a page of its own, on
which nothing is known of the other ones but the number of captioned algorithms before
it (`environments_independent`).

The number of code lines that one environment leaves on the page is not seen by the
next: where lines are numbered, every algorithmic environment counts them anew, and
where they are not, no line shows the count (`Environment.uncounted`). All else that a
page holds is as on an empty page when an environment is done.
-/

namespace AlgoBox

open Html Page Source

variable {α : Type} {options : Options} {setup : Setup}

/-! ## What is left of the count -/

namespace Html

/-- The sheet with another number of code lines. -/
def Sheet.recount (count : Nat) (s : Sheet) : Sheet := { s with count }

/-- Outside all blocks, and where lines carry no numbers, a line does not show how many
code lines are above it. -/
theorem rowAt_eq_rowAt {depth : Nat} (h : depth = 0 ∨ options.lineNumber.isTrue = false)
    (count count' : Nat) (content : List Inline) :
    rowAt options depth count content = rowAt options depth count' content := by
  unfold rowAt
  rcases h with rfl | h
  · rfl
  · simp [h]

/-- Another count makes no difference to the boxes that some marks give. -/
def Uncounted (options : Options) (depth : Nat) (marks : List Mark) : Prop :=
  ∀ s count, ∃ count', (Sheet.recount count s).writeAll options depth marks =
    (s.writeAll options depth marks).recount count'

namespace Uncounted

variable {depth : Nat} {mark : Mark} {marks marks' : List Mark}

theorem nil : Uncounted options depth [] := fun _ count => ⟨count, rfl⟩

theorem append (h : Uncounted options depth marks) (h' : Uncounted options depth marks') :
    Uncounted options depth (marks ++ marks') := by
  intro s count
  obtain ⟨count', hfirst⟩ := h s count
  obtain ⟨count'', hsecond⟩ := h' (s.writeAll options depth marks) count'
  refine ⟨count'', ?_⟩
  rw [Sheet.writeAll_append, Sheet.writeAll_append, hfirst, hsecond]

theorem cons (h : Uncounted options depth [mark]) (h' : Uncounted options depth marks) :
    Uncounted options depth (mark :: marks) :=
  append h h'

theorem start (h : depth = 0 ∨ options.lineNumber.isTrue = false) (content : List Inline) :
    Uncounted options depth [.start content] := by
  intro s count
  refine ⟨(s.recount count |>.start options depth content).count, ?_⟩
  show Sheet.mk _ (some (rowAt options depth count content)) _ = _
  rw [rowAt_eq_rowAt h count s.count]
  rfl

theorem join (h : depth = 0 ∨ options.lineNumber.isTrue = false) (content : List Inline) :
    Uncounted options depth [.join content] := by
  intro s count
  cases hrow : s.row with
  | none =>
      obtain ⟨count', hstart⟩ := start h content s count
      refine ⟨count', ?_⟩
      simp only [Sheet.writeAll, Sheet.write] at hstart ⊢
      simpa [Sheet.join, Sheet.recount, hrow] using hstart
  | some row =>
      refine ⟨count, ?_⟩
      simp [Sheet.writeAll, Sheet.write, Sheet.join, Sheet.recount, Sheet.add, hrow]

theorem alone (h : depth = 0 ∨ options.lineNumber.isTrue = false) (content : List Inline) :
    Uncounted options depth [.alone content] := by
  intro s count
  obtain ⟨count', hstart⟩ := start h content s count
  refine ⟨count', ?_⟩
  simp only [Sheet.writeAll, Sheet.write] at hstart ⊢
  rw [hstart]
  rfl

/-- A container whose marks do not see the count may be written behind any count. -/
theorem inside {div : Div} (h : Uncounted options (depth + div.blocks) marks) :
    Uncounted options depth [.inside div marks] := by
  intro s count
  obtain ⟨count', hinner⟩ := h { count := div.recount s.count } (div.recount count)
  refine ⟨count', ?_⟩
  have hinner : Sheet.writeAll options (depth + div.blocks) { count := div.recount count } marks =
      Sheet.recount count' (Sheet.writeAll options _ { count := div.recount s.count } marks) :=
    hinner
  simp only [Sheet.writeAll, Sheet.write, Sheet.contain, Sheet.recount] at hinner ⊢
  rw [hinner]
  rfl

end Uncounted

mutual

/-- Where lines carry no numbers the count is never seen. -/
theorem Mark.uncounted (h : options.lineNumber.isTrue = false) : ∀ (mark : Mark) (depth : Nat),
    Uncounted options depth [mark]
  | .start content, _ => .start (.inr h) content
  | .join content, _ => .join (.inr h) content
  | .alone content, _ => .alone (.inr h) content
  | .inside _ marks, _ => .inside (Mark.uncounted_all h marks _)

theorem Mark.uncounted_all (h : options.lineNumber.isTrue = false) :
    ∀ (marks : List Mark) (depth : Nat), Uncounted options depth marks
  | [], _ => .nil
  | mark :: rest, depth => .cons (Mark.uncounted h mark depth) (Mark.uncounted_all h rest depth)

end

/-- An algorithmic environment counts its lines anew if they carry numbers. -/
theorem Uncounted.algorithmic (marks : List Mark) :
    Uncounted options 0 [.inside (.algorithmic options.lineNumber.isTrue) marks] := by
  cases hnumbered : options.lineNumber.isTrue with
  | false => exact .inside (Mark.uncounted_all hnumbered marks _)
  | true =>
      intro s count
      exact ⟨_, rfl⟩

end Html

section Environments

variable (setup) {form : Form} {node : Node α} (captions : Nat)

theorem Algorithmic.uncounted (h : Algorithmic form node) :
    Uncounted setup.options 0 (node.marks setup) := by
  obtain ⟨-, -⟩ := h
  exact .algorithmic _

theorem Part.uncounted_marksAll {parts : List (Node α)} (h : ∀ part ∈ parts, Part form part) :
    Uncounted setup.options 0 (Node.marksAll setup parts) := by
  induction parts with
  | nil => exact .nil
  | cons part rest ih =>
      obtain ⟨hpart, hrest⟩ := List.forall_mem_cons.1 h
      refine .append ?_ (ih hrest)
      cases hpart with
      | caption => exact .nil
      | algorithmic halgorithmic => exact halgorithmic.uncounted setup

/-- The marks of an environment are one container, whose boxes do not depend on the
number of code lines above it. -/
theorem Environment.uncounted (h : Environment form node) :
    Uncounted setup.options 0 (node.environmentMarks setup captions) ∧
      ∃ div marks, node.environmentMarks setup captions = [.inside div marks] := by
  cases h with
  | algorithmic h =>
      have huncounted := h.uncounted setup
      obtain ⟨-, -⟩ := h
      exact ⟨huncounted, _, _, rfl⟩
  | algorithm hparts =>
      refine ⟨.inside (.append ?_ (Part.uncounted_marksAll setup hparts)), _, _, rfl⟩
      unfold captionMarks
      cases lastCaption? _ with
      | none => exact .nil
      | some words => exact .alone (.inl rfl) _

/-- An environment adds the boxes to a sheet that it gives on an empty one. -/
theorem Environment.boxes_write (h : Environment form node) (s : Sheet) :
    (s.writeAll setup.options 0 (node.environmentMarks setup captions)).boxes =
      s.boxes ++
        (Sheet.writeAll setup.options 0 {} (node.environmentMarks setup captions)).boxes := by
  obtain ⟨huncounted, div, marks, hmarks⟩ := h.uncounted setup captions
  obtain ⟨count', hempty⟩ := huncounted {} s.count
  rw [hmarks] at hempty ⊢
  have hadds : ∀ s : Sheet, (s.writeAll setup.options 0 [.inside div marks]).boxes = s.boxes ++
      [.container div (Sheet.writeAll setup.options (0 + div.blocks)
        { count := div.recount s.count } marks).boxes] := fun s => Sheet.boxes_contain s div _
  have hboxes := congrArg Sheet.boxes hempty
  rw [hadds s]
  exact congrArg (s.boxes ++ ·) ((hadds (Sheet.recount s.count {})).symm.trans hboxes)

/-- An environment alone is rendered to this page behind a number of captioned algorithms.
At its end no line and no block is open, and no text is held back. -/
structure RendersTo (setup : Setup) (captions : Nat) (node : Node α) (page : Page) : Prop where
  render : node.render setup { captionCount := captions } = .ok () page
  lineOpen : page.lineOpen = false
  pending : page.pending = #[]
  depth : page.depth = 0

/-- The page of an environment holds the boxes that it gives on an empty sheet. -/
theorem Environment.exists_rendersTo [setup.options.Textual] (h : Environment .normal node) :
    ∃ page, RendersTo setup captions node page ∧ page.fragments.toList = merged
      (Box.fragmentsAll (Sheet.writeAll setup.options 0 {}
        (node.environmentMarks setup captions)).boxes) := by
  obtain ⟨⟨⟩, page, hrun⟩ := (h.completes setup).completes { captionCount := captions }
  have hpage := h.fills setup captions [] {} not_endsText_nil { captionCount := captions } () page
    ⟨rfl, rfl, rfl⟩ hrun
  have hstatus := hpage.status
  refine ⟨page, ⟨hrun, ?_, hpage.pending, ?_⟩, hpage.fragments⟩
  · exact congrArg Status.lineOpen hstatus
  · exact congrArg Status.depth hstatus

/-- The boxes of some environments are those of each of them alone. -/
theorem Environment.all_rendersTo [setup.options.Textual] {nodes : List (Node α)}
    (h : ∀ node ∈ nodes, Environment .normal node) (s : Sheet) :
    ∃ pages : List Page, pages.length = nodes.length ∧
      (∀ (i : Nat) node page, nodes[i]? = some node → pages[i]? = some page →
        RendersTo setup (captions + ((nodes.take i).map Node.captioned).sum) node page) ∧
      merged (Box.fragmentsAll
          (s.writeAll setup.options 0 (Node.environmentsMarks setup captions nodes)).boxes) =
        merged (Box.fragmentsAll s.boxes) ++ pages.flatMap (·.fragments.toList) := by
  induction nodes generalizing captions s with
  | nil =>
      refine ⟨[], rfl, ?_, (List.append_nil _).symm⟩
      intro i node page hnode
      cases hnode
  | cons node rest ih =>
      obtain ⟨hnode, hrest⟩ := List.forall_mem_cons.1 h
      obtain ⟨page, hpage, hfragments⟩ := hnode.exists_rendersTo setup captions
      obtain ⟨pages, hlength, hpages, hmerged⟩ := ih (captions + node.captioned) hrest
        (s.writeAll setup.options 0 (node.environmentMarks setup captions))
      refine ⟨page :: pages, congrArg (· + 1) hlength, ?_, ?_⟩
      · intro i node' page' hnode' hpage'
        cases i with
        | zero =>
            cases hnode'
            cases hpage'
            exact hpage
        | succ i =>
            rw [List.take_succ_cons, List.map_cons, List.sum_cons, ← Nat.add_assoc]
            exact hpages i node' page' hnode' hpage'
      · have hseam : ¬EndsText (Box.fragmentsAll s.boxes) :=
          Box.not_endsText_fragmentsAll not_endsText_nil s.boxes
        have hboxes := hnode.boxes_write setup captions s
        rw [Node.environmentsMarks, Sheet.writeAll_append, hmerged, hboxes,
          Box.fragmentsAll_append, merged_append fun hends => absurd hends hseam, ← hfragments,
          List.flatMap_cons, List.append_assoc]

end Environments

/-! ## Documents -/

/-- The output of a source consists of the outputs of its environments, one behind the
other in the container of the document. Each is what the environment alone is rendered
to on an empty page on which the captioned algorithms before it are counted. -/
theorem environments_independent {source : String} {tree : Node Source.Location}
    {options : Options} (hparse : parse source = .ok tree)
    (hsymbol : ∃ s, options.commentSymbol = .text s)
    (hpunc : ∃ s, options.lineNumberPunc = .text s) (level : Log.Level) (typesetter : Typesetter) :
    let setup : Setup := ⟨options, typesetter.getD delimited⟩
    ∃ pages : List Page, pages.length = tree.children.length ∧
      (∀ (i : Nat) environment page,
        tree.children[i]? = some environment → pages[i]? = some page →
          RendersTo setup ((tree.children.take i).map Node.captioned).sum environment page) ∧
      (tree.rendering setup).page.fragments.toList =
        .openDiv .document :: (pages.flatMap (·.fragments.toList) ++ [.closeDiv]) ∧
      (renderTree level options typesetter tree).result =
        .ok (Fragment.join (tree.rendering setup).page.fragments.toList) := by
  intro setup
  have hnormal := normal_of_parse hparse
  have : setup.options.Textual := ⟨hsymbol, hpunc⟩
  have hfault := hnormal.fault_eq_none setup
  have hfragments := hnormal.rendering_fragments setup hfault
  obtain ⟨hresult, -⟩ := hnormal.renderTree_eq level options typesetter
  obtain ⟨henvironments⟩ := hnormal
  obtain ⟨pages, hlength, hpages, hmerged⟩ :=
    Environment.all_rendersTo setup 0 henvironments {}
  refine ⟨pages, hlength, ?_, ?_, ?_⟩
  · intro i environment page henvironment hpage
    rw [← Nat.zero_add (List.sum _)]
    exact hpages i environment page henvironment hpage
  · rw [hfragments, ← Box.merged_fragments, Box.fragments, merged_cons id,
      merged_append_singleton id]
    exact congrArg (fun inner => _ :: (inner ++ [_])) hmerged
  · rw [hresult]
    unfold Rendering.markup
    rw [hfault]
    rfl

/-- Two captioned algorithms: the second one is rendered behind one caption, and its lines
are counted from one on again. -/
theorem independent_two_algorithms :
    let source := "\\begin{algorithm}\\caption{A}\\begin{algorithmic}\\STATE a\\end{algorithmic}" ++
      "\\end{algorithm}\\begin{algorithm}\\caption{B}\\begin{algorithmic}\\STATE b" ++
      "\\end{algorithmic}\\end{algorithm}"
    let setup : Setup := ⟨{ Options.default with lineNumber := .bool true }, delimited⟩
    ∃ tree first second page page', parse source = .ok tree ∧ tree.children = [first, second] ∧
      RendersTo setup 0 first page ∧ RendersTo setup 1 second page' ∧
      (tree.rendering setup).page.fragments.toList = .openDiv .document ::
        (page.fragments.toList ++ page'.fragments.toList ++ [.closeDiv]) := by
  intro source setup
  have hcaptioned : (parse source).toOption.map (fun tree => tree.children.map Node.captioned) =
      some [1, 1] := by
    have htext : source.toList = _ := toList_append_append_ofList
    rw [parse_of_toList htext]
    decide +kernel
  cases htree : parse source with
  | error fault =>
      rw [htree] at hcaptioned
      cases hcaptioned
  | ok tree =>
      obtain ⟨pages, hlength, hpages, hfragments, -⟩ :=
        @environments_independent source tree setup.options htree ⟨_, rfl⟩ ⟨_, rfl⟩ .warning none
      have hcounts : tree.children.map Node.captioned = [1, 1] := by
        rw [htree] at hcaptioned
        exact Option.some.inj hcaptioned
      obtain ⟨first, children, hchildren, hfirst, hcounts⟩ := List.map_eq_cons_iff.1 hcounts
      obtain ⟨second, others, rfl, -, hcounts⟩ := List.map_eq_cons_iff.1 hcounts
      obtain rfl := List.map_eq_nil_iff.1 hcounts
      rw [hchildren] at hlength hpages
      obtain ⟨page, page', rfl⟩ := List.length_eq_two.1 hlength
      refine ⟨tree, first, second, page, page', rfl, hchildren, ?_, ?_, ?_⟩
      · exact hpages 0 first page rfl rfl
      · have hsecond := hpages 1 second page' rfl rfl
        rwa [List.take_succ_cons, List.take_zero, List.map_singleton, List.sum_singleton,
          hfirst] at hsecond
      · refine hfragments.trans ?_
        rw [List.flatMap_cons, List.flatMap_singleton]

end AlgoBox
