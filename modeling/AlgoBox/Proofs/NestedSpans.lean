import AlgoBox.Proofs.Placement
import AlgoBox.Proofs.Positions

/-!
# Spans are ordered and nested

The spans of a tree that is read lie in each other as the nodes do, and follow each other
as the nodes do (`parse_spanned`). The symbols of a source stand in line (`InLine`), so
whatever is placed among them is in order (`PlacedAll.ordered`). A part lies inside its
node if the part or what is behind it in the node is written with something (`Firm`). Of
what stands in a document only a command without text has a part for which this fails.
-/

namespace AlgoBox

open AlgoBox.Symbol Grammar Source

variable {α : Type}

/-! ## Symbols in line -/

/-- Behind `before` and up to `next` the symbols follow each other, and none is empty. -/
def InLine : Nat → List Symbol → Nat → Prop
  | before, [], next => before ≤ next
  | before, s :: ss, next => before ≤ s.start ∧ s.start < s.stop ∧ InLine s.stop ss next

namespace InLine

variable {before next : Nat} {u v ss : List Symbol}

theorem mono {earlier : Nat} (hle : earlier ≤ before) (h : InLine before ss next) :
    InLine earlier ss next := by
  cases ss with
  | nil => exact Nat.le_trans hle h
  | cons s ss =>
      obtain ⟨hstart, hrest⟩ := h
      exact ⟨Nat.le_trans hle hstart, hrest⟩

theorem le_lastStop (h : InLine before ss next) : before ≤ lastStop before ss := by
  induction ss generalizing before with
  | nil => exact Nat.le_refl _
  | cons s ss ih =>
      obtain ⟨hstart, hstop, hrest⟩ := h
      have := ih hrest
      rw [lastStop_cons]
      omega

theorem lastStop_le (h : InLine before ss next) : lastStop before ss ≤ next := by
  induction ss generalizing before with
  | nil => exact h
  | cons s ss ih =>
      obtain ⟨-, -, hrest⟩ := h
      exact ih hrest

theorem le_firstStart (h : InLine before ss next) : before ≤ firstStart ss next := by
  cases ss with
  | nil => exact h
  | cons s ss =>
      obtain ⟨hstart, -⟩ := h
      exact hstart

theorem firstStart_lt (h : InLine before ss next) (hne : ss ≠ []) :
    firstStart ss next < lastStop before ss := by
  cases ss with
  | nil => exact absurd rfl hne
  | cons s ss =>
      obtain ⟨-, hstop, hrest⟩ := h
      exact Nat.lt_of_lt_of_le hstop hrest.le_lastStop

theorem firstStart_le (h : InLine before ss next) : firstStart ss next ≤ next := by
  cases ss with
  | nil => exact Nat.le_refl _
  | cons s ss => exact Nat.le_trans (Nat.le_of_lt (h.firstStart_lt nofun)) h.lastStop_le

theorem split (h : InLine before (u ++ v) next) :
    InLine before u (firstStart v next) ∧ InLine (lastStop before u) v next := by
  induction u generalizing before with
  | nil => exact ⟨h.le_firstStart, h⟩
  | cons s u ih =>
      obtain ⟨hstart, hstop, hrest⟩ := h
      obtain ⟨hu, hv⟩ := ih hrest
      exact ⟨⟨hstart, hstop, hu⟩, hv⟩

end InLine

/-- The symbols of a source that is cut to its end stand in line. -/
theorem inLine_scanFrom {offset length : Nat} {s : List Char}
    (h : (scanFrom Recognizer.table offset s).ending = .complete length) :
    InLine offset (scanFrom Recognizer.table offset s).symbols length := by
  induction offset, s using scan_induction with
  | atEnd offset =>
      rw [scanFrom_nil] at h ⊢
      cases h
      exact Nat.le_refl _
  | blank offset c s hc ih =>
      rw [scanFrom_blank hc] at h ⊢
      exact (ih h).mono (Nat.le_succ _)
  | token offset t rest hvalid ht hstops ih =>
      rw [scanFrom_token hvalid ht hstops] at h ⊢
      have hpos := List.length_pos_iff.2 (chars_ne_nil hvalid ht)
      exact ⟨Nat.le_refl _, Nat.lt_add_of_pos_right hpos, ih h⟩
  | unrecognizable offset s hblank hs =>
      rw [scanFrom_unrecognizable hblank hs] at h
      cases h

/-! ## The order of parts -/

section Order

variable {before next : Nat} {ss : List Symbol} {lead : List Token} {node part : Node Span}
  {pieces : List (Piece Span)}

theorem Placed.bounds (h : Placed lead before ss next node) (hline : InLine before ss next) :
    before ≤ node.loc.start ∧ node.loc.start ≤ node.loc.stop ∧ node.loc.stop ≤ next := by
  rw [h.loc_eq]
  have hfirst := hline.le_firstStart
  have hlast := Nat.max_le.2 ⟨hline.firstStart_le, hline.lastStop_le⟩
  exact ⟨hfirst, Nat.le_max_left _ _, hlast⟩

/-- Parts follow each other, behind the start of the first symbol. -/
theorem PlacedAll.ordered (h : PlacedAll before ss next pieces) (hline : InLine before ss next) :
    (∀ part ∈ pieces.filterMap Piece.part?, firstStart ss next ≤ part.loc.start) ∧
    (pieces.filterMap Piece.part?).IsChain fun a b => a.loc.stop ≤ b.loc.start := by
  induction pieces generalizing before ss with
  | nil => exact ⟨nofun, .nil⟩
  | cons piece pieces ih =>
      cases h with
      | @token _ _ s ss _ _ hs hrest =>
          obtain ⟨-, hstop, hline⟩ := hline
          obtain ⟨hfirst, hchain⟩ := ih hrest hline
          refine ⟨fun part hpart => ?_, hchain⟩
          have hle := hline.le_firstStart
          have := hfirst part hpart
          rw [firstStart_cons]
          omega
      | @part _ _ _ u v _ _ _ hss hnode hrest =>
          subst hss
          obtain ⟨hu, hv⟩ := hline.split
          obtain ⟨hfirst, hchain⟩ := ih hrest hv
          obtain ⟨-, hle, hstop⟩ := hnode.bounds hu
          have hstart : firstStart (u ++ v) next = _ := firstStart_append
          refine ⟨List.forall_mem_cons.2 ⟨?_, ?_⟩, List.isChain_cons.2 ⟨?_, hchain⟩⟩
          · rw [hstart, hnode.loc_eq]
            exact Nat.le_refl _
          · intro part hpart
            rw [hstart]
            exact Nat.le_trans hu.firstStart_le (hfirst part hpart)
          · intro part hpart
            exact Nat.le_trans hstop (hfirst part (List.mem_of_mem_head? hpart))

/-! ## Parts inside their node -/

/-- Of each part, the part or what is behind it is written with something. -/
def Firm : List (Piece α) → Prop
  | [] => True
  | .token _ :: rest => Firm rest
  | .part lead node :: rest =>
    lead ++ (node.ownTokens ++ rest.flatMap Piece.tokens) ≠ [] ∧ Firm rest

theorem firm_tokens {pieces : List (Piece α)} (ts : List Token) (h : Firm pieces) :
    Firm (ts.map .token ++ pieces) := by
  induction ts with
  | nil => exact h
  | cons t ts ih => exact ih

/-- Parts that are firm end inside the symbols. -/
theorem PlacedAll.inside (h : PlacedAll before ss next pieces) (hline : InLine before ss next)
    (hfirm : Firm pieces) :
    ∀ part ∈ pieces.filterMap Piece.part?, part.loc.stop ≤ lastStop before ss := by
  induction pieces generalizing before ss with
  | nil => exact nofun
  | cons piece pieces ih =>
      cases h with
      | token hs hrest =>
          obtain ⟨-, -, hline⟩ := hline
          exact fun part hpart => ih hrest hline hfirm part hpart
      | @part _ _ _ u v _ _ _ hss hnode hrest =>
          subst hss
          obtain ⟨hne, hfirm⟩ := hfirm
          obtain ⟨hu, hv⟩ := hline.split
          rw [lastStop_append]
          refine List.forall_mem_cons.2 ⟨?_, ih hrest hv hfirm⟩
          obtain ⟨-, -, hstop⟩ := hnode.bounds hu
          by_cases hnil : v = []
          · -- nothing is behind the part, so it has symbols
            subst hnil
            have hne' : u ≠ [] := by
              rintro rfl
              have hnothing := hnode.tokens_eq
              have hbehind := hrest.tokens_eq
              rw [List.map_nil] at hnothing hbehind
              refine hne ?_
              rw [← List.append_assoc, ← hnothing, ← hbehind]
              rfl
            rw [hnode.loc_eq]
            exact Nat.max_le.2 ⟨Nat.le_of_lt (hu.firstStart_lt hne'), Nat.le_refl _⟩
          · exact Nat.le_trans hstop (Nat.le_of_lt (hv.firstStart_lt hnil))

theorem filterMap_part?_pieces (lead : List Token) (node : Node Span) :
    (lead.map Piece.token ++ node.pieces).filterMap Piece.part? = node.parts := by
  rw [List.filterMap_append, Piece.filterMap_part?_tokens, List.nil_append, Node.part?_pieces]

theorem Placed.chain (h : Placed lead before ss next node) (hline : InLine before ss next) :
    node.parts.IsChain fun a b => a.loc.stop ≤ b.loc.start := by
  rw [← filterMap_part?_pieces lead node]
  exact (h.all.ordered hline).2

theorem Placed.nested (h : Placed lead before ss next node) (hline : InLine before ss next)
    (hfirm : Firm node.pieces) :
    ∀ part ∈ node.parts, node.loc.start ≤ part.loc.start ∧ part.loc.stop ≤ node.loc.stop := by
  obtain ⟨hfirst, -⟩ := h.all.ordered hline
  have hlast := h.all.inside hline (firm_tokens lead hfirm)
  rw [filterMap_part?_pieces] at hfirst hlast
  intro part hpart
  rw [h.loc_eq]
  exact ⟨hfirst part hpart, Nat.le_trans (hlast part hpart) (Nat.le_max_right _ _)⟩

end Order

/-! ## What is firm -/

section Firmness

variable {pieces : List (Piece α)}

/-- The node is a phrase, or its span includes a token. -/
def Node.IsSolid (node : Node α) : Prop := ¬node.IsText → node.ownTokens ≠ []

theorem firm_enclosed {node : Node α} (h : node.IsSolid) (hpieces : Firm pieces) :
    Firm (node.enclosed ++ pieces) := by
  cases node with
  | text words => exact ⟨by simp [Piece.tokens], hpieces⟩
  | algorithm | algorithmic =>
      exact ⟨by simp [h id], firm_tokens _ hpieces⟩
  | _ => exact ⟨by simp [h id], hpieces⟩

theorem firm_enclosedAll {nodes : List (Node α)} (h : ∀ node ∈ nodes, node.IsSolid)
    (hpieces : Firm pieces) : Firm (Node.enclosedAll nodes ++ pieces) := by
  induction nodes with
  | nil => exact hpieces
  | cons node rest ih =>
      obtain ⟨hnode, hrest⟩ := List.forall_mem_cons.1 h
      rw [Node.enclosedAll, List.flatMap_cons, List.append_assoc]
      exact firm_enclosed hnode (ih hrest)

theorem firm_enclosed? {body : Option (Node α)} (h : ∀ node ∈ body.toList, node.IsSolid)
    (hpieces : Firm pieces) : Firm (Node.enclosed? body ++ pieces) := by
  cases body with
  | none => exact hpieces
  | some node => exact firm_enclosed (h node List.mem_cons_self) hpieces

theorem firm_arms (keyword : String) (arms : List (Branch α)) (hpieces : Firm pieces) :
    Firm (Branch.pieces keyword arms ++ pieces) := by
  induction arms generalizing keyword with
  | nil => exact hpieces
  | cons arm rest ih => exact ⟨List.cons_ne_nil _ _, ih "ELIF"⟩

theorem Node.isSolid_text (words : Phrase α) : (Node.text words).IsSolid :=
  fun htext => absurd trivial htext

/-- All pieces of a node are firm but the phrase of a command, behind which nothing is. -/
theorem Node.firm_pieces {node : Node α} (hparts : ∀ part ∈ node.parts, part.IsSolid)
    (hcommand : ∀ loc name words, node = .command loc name words → words.tokens ≠ []) :
    Firm node.pieces := by
  have hall : ∀ nodes : List (Node α), (∀ node ∈ nodes, node.IsSolid) →
      Firm (enclosedAll nodes) := by
    intro nodes h
    rw [← List.append_nil (enclosedAll nodes)]
    exact firm_enclosedAll h trivial
  have htext : ∀ (words : Phrase α) (more : List (Piece α)), Firm more →
      Firm ((Node.text words).enclosed ++ more) :=
    fun words _ hmore => firm_enclosed (isSolid_text words) hmore
  have hbody : ∀ {words : Phrase α} {body : Option (Node α)} {t : Token},
      (∀ part ∈ .text words :: body.toList, part.IsSolid) →
      Firm ((Node.text words).enclosed ++ (enclosed? body ++ [.token t])) := by
    intro words body t h
    exact htext words _ (firm_enclosed? (List.forall_mem_cons.1 h).2 trivial)
  cases node with
  | bare | leaf => exact trivial
  | root _ children | block _ children => exact hall children hparts
  | algorithm _ children | algorithmic _ children => exact firm_tokens _ (hall children hparts)
  | text words => exact hall words.items hparts
  | caption _ words | comment _ words => exact htext words [] trivial
  | command loc name words =>
      exact ⟨by simpa [ownTokens] using hcommand loc name words rfl, trivial⟩
  | call _ name args => exact firm_tokens _ (htext args [] trivial)
  | branch arm =>
      obtain ⟨loc, cond, body⟩ := arm
      rw [pieces, ← List.append_nil (enclosed? body)]
      exact htext cond _ (firm_enclosed? (List.forall_mem_cons.1 hparts).2 trivial)
  | conditional _ arms hasElse elseBody =>
      have helse : Firm (enclosed? elseBody ++ [.token (.word "ENDIF")]) :=
        firm_enclosed? (List.forall_mem_append.1 hparts).2 trivial
      cases hasElse <;> exact firm_arms _ arms helse
  | loop => exact hbody hparts
  | function => exact firm_tokens _ (hbody hparts)

theorem Constituent.isSolid {form : Form} {node : Node α} (h : Constituent form node)
    (hform : form.grouped) : node.IsSolid := by
  intro htext
  have htokens := h.tokens_ne_nil hform htext
  cases node with
  | algorithm | algorithmic => exact List.cons_ne_nil _ _
  | root loc children => exact absurd h Constituent.not_root
  | text => exact absurd trivial htext
  | _ => exact htokens

/-- A command whose phrase holds nothing. -/
def Node.IsTextless : Node α → Prop
  | .command _ _ words => words.items = []
  | _ => False

theorem Constituent.firm {form : Form} {node : Node α} (h : Constituent form node)
    (hform : form.grouped) (htextless : ¬node.IsTextless) : Firm node.pieces := by
  refine Node.firm_pieces (fun part hpart => (h.parts hpart).isSolid hform) ?_
  rintro loc name words rfl
  exact h.words_of_command.tokens_ne_nil htextless

end Firmness

/-! ## The law -/

/-- What the spans of a node and its parts are in a source. The span lies in the source, and
the line and column are those of its start. The parts come in order and inside the span of
the node, except that the empty phrase of a command without text stands where the next
symbol starts. -/
structure Node.Spanned (source : List Char) (node : Node Location) : Prop where
  bounds : 0 ≤ node.loc.start ∧ node.loc.start ≤ node.loc.stop ∧ node.loc.stop ≤ source.length
  stands : Stands source node.loc.start.toNat node.loc.line node.loc.column
  nested : ¬node.IsTextless → ∀ part ∈ node.parts,
    node.loc.start ≤ part.loc.start ∧ part.loc.stop ≤ node.loc.stop
  textless : node.IsTextless → ∀ part ∈ node.parts, part.parts = [] ∧
    ∃ next ∈ (scan source).stream, part.loc.start = next.start ∧ part.loc.stop = next.start ∧
      node.loc.stop ≤ next.start ∧ Blank (between source node.loc.stop.toNat next.start)
  ordered : node.parts.IsChain fun a b => a.loc.stop ≤ b.loc.start

theorem Node.isTextless_map {β : Type} (f : α → β) (node : Node α) :
    (node.map f).IsTextless ↔ node.IsTextless := by
  cases node with
  | command loc name words =>
      obtain ⟨_, items⟩ := words
      cases items <;> simp [Node.map, Phrase.map, Node.mapAll, IsTextless, Phrase.items]
  | _ => exact Iff.rfl

/-- Locations are as the spans are that they are made of. -/
theorem Node.spanned_map {source : List Char} {node : Node Span}
    (hbounds : node.loc.start ≤ node.loc.stop ∧ node.loc.stop ≤ source.length)
    (hnested : ¬node.IsTextless → ∀ part ∈ node.parts,
      node.loc.start ≤ part.loc.start ∧ part.loc.stop ≤ node.loc.stop)
    (htextless : node.IsTextless → ∀ part ∈ node.parts, part.parts = [] ∧
      ∃ next ∈ (scan source).stream, part.loc.start = next.start ∧ part.loc.stop = next.start ∧
        node.loc.stop ≤ next.start ∧ Blank (between source node.loc.stop next.start))
    (hordered : node.parts.IsChain fun a b => a.loc.stop ≤ b.loc.start) :
    (node.map (Span.location (.ofSource source))).Spanned source := by
  obtain ⟨hle, hstop⟩ := hbounds
  have hparts := node.parts_map (Span.location (.ofSource source))
  have hstands := Location.ofOffset_stands (Nat.le_trans hle hstop) (some (node.loc.stop : Int))
  rw [← LineTable.location_eq (Nat.le_trans hle hstop)] at hstands
  constructor
  · rw [loc_map]
    exact ⟨Int.natCast_nonneg _, Int.ofNat_le.2 hle, Int.ofNat_le.2 hstop⟩
  · rw [loc_map]
    exact hstands
  · rw [isTextless_map, hparts, loc_map]
    intro hnot
    refine List.forall_mem_map.2 fun part hpart => ?_
    obtain ⟨hstart, hend⟩ := hnested hnot part hpart
    rw [loc_map]
    exact ⟨Int.ofNat_le.2 hstart, Int.ofNat_le.2 hend⟩
  · rw [isTextless_map, hparts, loc_map]
    intro htext
    refine List.forall_mem_map.2 fun part hpart => ?_
    obtain ⟨hnone, next, hnext, hstart, hend, hbefore, hblank⟩ := htextless htext part hpart
    rw [loc_map, parts_map, hnone]
    exact ⟨rfl, next, hnext, congrArg Int.ofNat hstart, congrArg Int.ofNat hend,
      Int.ofNat_le.2 hbefore, hblank⟩
  · rw [hparts, List.isChain_map]
    simp only [loc_map]
    exact hordered.imp fun a b hab => Int.ofNat_le.2 hab

section LaidOut

variable {source : List Char} {tree node : Node Span}

theorem Node.LaidOut.inLine (h : tree.LaidOut source) :
    InLine 0 (scan source).symbols source.length := inLine_scanFrom h.complete

/-- Behind a symbol there are only blanks up to the next one, or to the end of the source. -/
theorem Node.LaidOut.blank_behind (htree : tree.LaidOut source) {u v : List Symbol} {s : Symbol}
    (hss : (scan source).symbols = u ++ s :: v) :
    ∃ next ∈ (scan source).stream, firstStart v source.length = next.start ∧
      s.stop ≤ next.start ∧ Blank (between source s.stop next.start) := by
  have hgaps := @Tiled.gaps source [] _ (tiled_of_scanFrom htree.complete)
  have hnext : ∃ next more, v ++ [.atEnd source.length] = next :: more ∧
      firstStart v source.length = next.start := by
    cases v with
    | nil => exact ⟨_, _, rfl, rfl⟩
    | cons next more => exact ⟨_, _, rfl, rfl⟩
  obtain ⟨next, more, hmore, hstart⟩ := hnext
  have hstream : (scan source).stream = u ++ s :: next :: more := by
    rw [Scan.stream, htree.complete, hss, Ending.symbols, List.append_assoc, List.cons_append,
      hmore]
  refine ⟨next, ?_, hstart, ?_⟩
  · rw [hstream]
    simp
  · change List.IsChain _ ((0, 0) :: (scan source).stream.map _) at hgaps
    rw [hstream, List.map_append, List.map_cons, List.map_cons, ← List.cons_append,
      List.isChain_append_cons_cons] at hgaps
    exact hgaps.2.1

/-- The empty phrase of a command without text. -/
theorem Node.LaidOut.textless (htree : tree.LaidOut source)
    (hplaced : PlacedIn 0 (scan source).symbols source.length node) (htext : node.IsTextless) :
    ∀ part ∈ node.parts, part.parts = [] ∧ ∃ next ∈ (scan source).stream,
      part.loc.start = next.start ∧ part.loc.stop = next.start ∧ node.loc.stop ≤ next.start ∧
      Blank (between source node.loc.stop next.start) := by
  obtain ⟨lead, u, w, v, hss, hregular, hnode⟩ := hplaced
  cases node with
  | command loc name words =>
      obtain rfl : lead = [] := hregular.resolve_right nofun
      have hitems : words.tokens = [] := by
        obtain ⟨_, items⟩ := words
        obtain rfl : items = [] := htext
        rfl
      have hloc := hnode.loc_eq
      rcases hnode.all with _ | @⟨_, _, s, w, _, _, hs, hrest⟩
      -- the phrase has no symbols, so its span is the place of the next one
      have hw : w = [] := by
        have htokens := hrest.tokens_eq
        rw [List.flatMap_singleton, Piece.tokens, Node.ownTokens, hitems] at htokens
        exact List.map_eq_nil_iff.1 htokens
      subst hw
      rcases hrest with _ | _ | ⟨hnone, hphrase, -⟩
      obtain ⟨rfl, rfl⟩ := List.append_eq_nil_iff.1 hnone.symm
      obtain ⟨next, hnext, hstart, hstop, hblank⟩ := htree.blank_behind hss
      have hline := htree.inLine
      rw [hss] at hline
      obtain ⟨-, hlt, -⟩ := hline.split.2
      have hend : (Node.command loc name words).loc.stop = s.stop := by
        rw [hloc]
        exact Nat.max_eq_right (Nat.le_of_lt hlt)
      intro part hpart
      cases List.mem_singleton.1 hpart
      refine ⟨htext, next, hnext, ?_, ?_, ?_, ?_⟩
      · rw [hphrase.loc_eq]
        exact hstart
      · rw [hphrase.loc_eq, ← hstart]
        exact Nat.max_eq_left (hstart ▸ hstop)
      · rwa [hend]
      · rwa [hend]
  | _ => exact htext.elim

/-- What is placed among the symbols of a source ends in the source. -/
theorem Node.LaidOut.bounds (htree : tree.LaidOut source)
    (hplaced : PlacedIn 0 (scan source).symbols source.length node) :
    node.loc.start ≤ node.loc.stop ∧ node.loc.stop ≤ source.length := by
  obtain ⟨lead, u, w, v, hss, -, hnode⟩ := hplaced
  have hline := htree.inLine
  rw [hss] at hline
  obtain ⟨hw, hv⟩ := hline.split.2.split
  obtain ⟨-, hle, hstop⟩ := hnode.bounds hw
  exact ⟨hle, Nat.le_trans hstop hv.firstStart_le⟩

theorem Node.LaidOut.spanned_document (htree : tree.LaidOut source) :
    (tree.map (Span.location (.ofSource source))).Spanned source := by
  have hnot : ¬tree.IsTextless := by
    obtain ⟨-⟩ := htree.document
    exact id
  have hchain := (htree.placed.ordered htree.inLine).2
  rw [Node.part?_pieces] at hchain
  refine Node.spanned_map ?_ (fun _ part hpart => ?_) (fun htext => absurd htext hnot) hchain
  · rw [htree.loc_eq]
    exact ⟨Nat.zero_le _, Nat.le_refl _⟩
  · obtain ⟨-, hstop⟩ := htree.bounds (htree.placed.parts_in hpart)
    rw [htree.loc_eq]
    exact ⟨Nat.zero_le _, hstop⟩

theorem Node.LaidOut.spanned_constituent (htree : tree.LaidOut source)
    (hconstituent : Constituent .grouping node)
    (hplaced : PlacedIn 0 (scan source).symbols source.length node) :
    (node.map (Span.location (.ofSource source))).Spanned source := by
  have hbounds := htree.bounds hplaced
  have htext := htree.textless hplaced
  obtain ⟨lead, u, w, v, hss, -, hnode⟩ := hplaced
  have hline := htree.inLine
  rw [hss] at hline
  obtain ⟨hw, -⟩ := hline.split.2.split
  refine Node.spanned_map hbounds (fun hnot => ?_) htext (hnode.chain hw)
  exact hnode.nested hw (hconstituent.firm trivial hnot)

end LaidOut

/-- The spans of a tree that is read are ordered and nested: the document spans the whole
source, and the law holds of every node. -/
theorem parse_spanned {source : String} {tree : Node Location} (h : parse source = .ok tree) :
    (tree.loc.start = 0 ∧ tree.loc.stop = source.toList.length) ∧
    ∀ node, tree.Within node → node.Spanned source.toList := by
  obtain ⟨tree, rfl, htree⟩ := exists_laidOut_of_parse h
  constructor
  · rw [Node.loc_map, htree.loc_eq]
    exact ⟨rfl, rfl⟩
  · intro located hlocated
    obtain ⟨node, hnode, rfl⟩ := hlocated.of_map
    rcases htree.within hnode with rfl | ⟨hconstituent, hplaced⟩
    · exact htree.spanned_document
    · exact htree.spanned_constituent hconstituent hplaced

/-- A statement without text in front of another line. -/
theorem spanned_empty_statement :
    ∃ tree, parse "\\begin{algorithmic}\\STATE\n\\STATE x\\end{algorithmic}" = .ok tree ∧
      (tree.loc.start = 0 ∧ tree.loc.stop =
        "\\begin{algorithmic}\\STATE\n\\STATE x\\end{algorithmic}".toList.length) ∧
      ∀ node, tree.Within node →
        node.Spanned "\\begin{algorithmic}\\STATE\n\\STATE x\\end{algorithmic}".toList := by
  obtain ⟨tree, htree⟩ := exists_parse_iff.2 (show fault?
    "\\begin{algorithmic}\\STATE\n\\STATE x\\end{algorithmic}" = none by decide +kernel)
  exact ⟨tree, htree, parse_spanned htree⟩

end AlgoBox
