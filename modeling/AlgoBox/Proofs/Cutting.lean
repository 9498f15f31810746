import AlgoBox.Node.Equality
import AlgoBox.Proofs.NestedSpans

/-!
# Nodes cut out of their source

What stands in a source from the start of a span to its end, the cut of the node
(`Node.cut`), has the tokens of just that node (`spells_cut`): it begins and ends with a
symbol (`Tiled.from_start`, `Tiled.up_to_stop`), and symbols are the same wherever they
stand. So the cut of a statement between the marks of an algorithmic environment is read
as that statement (`parse_cut_statement`), and the cut of an environment, which stops in
front of its closing, is read as that environment once the closing is put back
(`parse_cut_environment`).
-/

namespace AlgoBox

open AlgoBox.Symbol Grammar Source Token

variable {α : Type}

/-! ## Texts and their tokens -/

/-- The text is cut to its end, into symbols of these tokens. -/
structure Spells (s : List Char) (ts : List Token) : Prop where
  complete : (scan s).IsComplete
  tokens : (scan s).symbols.map token = ts

theorem Spells.scan_tokens {s : List Char} {ts : List Token} (h : Spells s ts) :
    (scan s).tokens = ts ++ [.endOfSource] := by
  obtain ⟨length, hlength⟩ := h.complete
  rw [Scan.tokens, Scan.stream, List.map_append, h.tokens, hlength]
  rfl

/-- The tokens of two texts behind each other, if the first one ends with a token that stops
where the second one begins. -/
theorem Spells.append {s t : List Char} {ts us : List Token} (hs : Spells s ts)
    (ht : Spells t us) (hseam : ∀ x ∈ ts.getLast?, x.Stops t) : Spells (s ++ t) (ts ++ us) := by
  have hlast : ∀ x ∈ (scan s).symbols.getLast?, x.token.Stops t := by
    intro x hx
    refine hseam _ ?_
    rw [← hs.tokens, List.getLast?_map]
    exact Option.mem_map_of_mem token hx
  obtain ⟨length, hlength⟩ := ht.complete
  have happend := scan_append hs.complete hlast
  have hmove : ∀ k (x : Symbol), (x.move k).token = x.token := fun _ _ => rfl
  constructor
  · rw [happend]
    exact ⟨length + s.length, by rw [Scan.behind, Scan.move, hlength]; rfl⟩
  · rw [happend, Scan.behind, Scan.move, List.map_append, List.map_map, ← hs.tokens, ← ht.tokens]
    exact congrArg (_ ++ ·) (List.map_congr_left fun x _ => hmove _ x)

/-- Every token stops in front of a backslash. -/
theorem stops_backslash (t : Token) (rest : List Char) : t.Stops ('\\' :: rest) := by
  refine stops_of_reserved t ?_
  rintro c ⟨⟩
  decide

/-- A source is read as the grouped tree that its tokens are those of. -/
theorem Spells.parsesAs {source : String} {ts : List Token} (h : Spells source.toList ts)
    {tree : Node Unit} (htree : Document .grouping tree)
    (htokens : tree.tokens = ts ++ [.endOfSource]) :
    ParsesAs source tree :=
  parsesAs_iff.2 ⟨h.complete, htree, htokens.trans h.scan_tokens.symm⟩

/-! ## Stretches of symbols -/

theorem scanFrom_gap {gap : List Char} (hgap : Blank gap) (offset : Nat) (s : List Char) :
    scanFrom Recognizer.table offset (gap ++ s) =
      scanFrom Recognizer.table (offset + gap.length) s := by
  induction gap generalizing offset with
  | nil => rfl
  | cons c gap ih =>
      obtain ⟨hc, hgap⟩ := List.forall_mem_cons.1 hgap
      rw [List.cons_append, scanFrom_blank hc, ih hgap, List.length_cons, Nat.add_assoc,
        Nat.add_comm 1]

namespace Tiled

variable {offset : Nat} {s : List Char} {x : Symbol} {symbols u v w : List Symbol}

/-- A text is cut into the symbols that it is tiled by. -/
theorem scan_eq (h : Tiled offset s symbols) :
    (scanFrom Recognizer.table offset s).IsComplete ∧
      (scanFrom Recognizer.table offset s).stream = symbols := by
  induction h with
  | @atEnd offset gap hgap =>
      have hscan := scanFrom_gap hgap offset []
      rw [List.append_nil, scanFrom_nil] at hscan
      rw [hscan]
      exact ⟨⟨_, rfl⟩, rfl⟩
  | @token offset gap rest t symbols hgap hvalid ht hstops _ ih =>
      obtain ⟨hcomplete, hstream⟩ := ih
      rw [scanFrom_gap hgap, scanFrom_token hvalid ht hstops]
      exact ⟨hcomplete, congrArg (_ :: ·) hstream⟩

/-- From the start of a symbol on the text is tiled by it and those behind it. -/
theorem from_start (h : Tiled offset s (u ++ x :: v)) :
    ∃ front back, s = front ++ back ∧ offset + front.length = x.start ∧
      Tiled x.start back (x :: v) := by
  generalize hsymbols : u ++ x :: v = symbols at h
  induction h generalizing u with
  | @atEnd offset gap hgap =>
      cases u with
      | nil =>
          cases hsymbols
          exact ⟨gap, [], (List.append_nil gap).symm, rfl, @atEnd _ [] nofun⟩
      | cons y u => simp at hsymbols
  | @token offset gap rest t symbols hgap hvalid ht hstops hrest ih =>
      cases u with
      | nil =>
          cases hsymbols
          exact ⟨gap, _, rfl, rfl, @token _ [] rest t _ nofun hvalid ht hstops hrest⟩
      | cons y u =>
          obtain ⟨front, back, rfl, hfront, htiled⟩ := ih (List.cons.inj hsymbols).2
          refine ⟨gap ++ (t.chars ++ front), back, by simp, ?_, htiled⟩
          rw [← hfront, List.length_append, List.length_append]
          omega

/-- Up to the end of a symbol the text is tiled by it and those before it. -/
theorem up_to_stop (h : Tiled offset s (w ++ v)) (hv : v ≠ []) :
    ∃ front back, s = front ++ back ∧ offset + front.length = lastStop offset w ∧
      Tiled offset front (w ++ [.atEnd (lastStop offset w)]) := by
  generalize hsymbols : w ++ v = symbols at h
  induction h generalizing w with
  | @atEnd offset gap hgap =>
      cases w with
      | nil => exact ⟨[], gap, rfl, rfl, @atEnd _ [] nofun⟩
      | cons y w =>
          -- nothing is left behind the only symbol
          obtain ⟨-, hv'⟩ := List.append_eq_nil_iff.1 (List.cons.inj hsymbols).2
          exact absurd hv' hv
  | @token offset gap rest t symbols hgap hvalid ht hstops hrest ih =>
      cases w with
      | nil => exact ⟨[], _, rfl, rfl, @atEnd _ [] nofun⟩
      | cons y w =>
          obtain ⟨rfl, htail⟩ := List.cons.inj hsymbols
          obtain ⟨front, back, rfl, hfront, htiled⟩ := ih htail
          have hseam := stops_take hstops front.length
          rw [List.take_left] at hseam
          refine ⟨gap ++ (t.chars ++ front), back, by simp, ?_, ?_⟩
          · rw [List.length_append, List.length_append, ← Nat.add_assoc, ← Nat.add_assoc]
            exact hfront
          · exact token hgap hvalid ht hseam htiled

/-- A text has the tokens of the symbols that it is tiled by, wherever it begins. -/
theorem spells {stop : Nat} (h : Tiled offset s (w ++ [.atEnd stop])) :
    Spells s (w.map Symbol.token) := by
  obtain ⟨⟨length, hlength⟩, hstream⟩ := h.scan_eq
  have hmove := scanFrom_move offset 0 s
  rw [Nat.zero_add] at hmove
  rw [Scan.stream, hlength] at hstream
  obtain ⟨hsymbols, -⟩ := List.append_inj' hstream rfl
  constructor
  · rw [hmove, Scan.move] at hlength
    cases hending : (scanFrom Recognizer.table 0 s).ending with
    | complete length => exact ⟨length, hending⟩
    | unrecognized o =>
        rw [hending] at hlength
        cases hlength
  · rw [← hsymbols, hmove, Scan.move, List.map_map]
    rfl

end Tiled

/-- The stretch of a source from the start of a symbol to the end of a later one. -/
theorem spells_between {source : List Char} {u w v : List Symbol}
    (hcomplete : (scan source).ending = .complete source.length)
    (hss : (scan source).symbols = u ++ (w ++ v)) (hw : w ≠ []) (before next : Nat) :
    Spells (between source (firstStart w next) (lastStop before w)) (w.map token) := by
  have htiled := tiled_of_scanFrom hcomplete
  obtain ⟨x, w, rfl⟩ := List.exists_cons_of_ne_nil hw
  have hstream : (scanFrom Recognizer.table 0 source).stream =
      u ++ x :: (w ++ (v ++ [.atEnd source.length])) := by
    change (scan source).stream = _
    rw [Scan.stream, hss, hcomplete]
    simp [Ending.symbols]
  rw [hstream] at htiled
  obtain ⟨front, rest, rfl, hfront, htiled⟩ := htiled.from_start
  rw [← List.cons_append] at htiled
  obtain ⟨cut, back, rfl, hcut, htiled⟩ := htiled.up_to_stop (by simp)
  rw [Nat.zero_add] at hfront
  have hbetween : between (front ++ (cut ++ back)) (firstStart (x :: w) next)
      (lastStop before (x :: w)) = cut := by
    change between _ x.start (lastStop x.start (x :: w)) = cut
    rw [← hcut, ← hfront, between_append]
  rw [hbetween]
  exact htiled.spells

/-! ## The cut of a node -/

/-- What stands in a source from the start to the end of the location of a node. -/
def Node.cut (source : String) (node : Node Location) : String :=
  String.ofList (between source.toList node.loc.start.toNat node.loc.stop.toNat)

/-- The span of the node is that of its own tokens: it is no document, in whose span there
are blanks, no arm, in front of which its keyword is, and no phrase, which may have none. -/
def Node.IsWhole : Node α → Prop
  | .bare _ | .root .. | .text _ | .branch _ => False
  | _ => True

theorem Node.ownTokens_map {β : Type} (f : α → β) (node : Node α) :
    (node.map f).ownTokens = node.ownTokens := by
  cases node with
  | text words => exact words.tokens_map f
  | algorithm | algorithmic => exact congrArg (_ ++ ·) (tokensAll_map f _)
  | root => exact tokensAll_map f _
  | _ => exact tokens_map f _

theorem Node.isWhole_map {β : Type} (f : α → β) (node : Node α) :
    (node.map f).IsWhole ↔ node.IsWhole := by
  cases node <;> rfl

/-- The cut of a node has the tokens of the node. -/
theorem spells_cut {source : String} {tree node : Node Location} (h : parse source = .ok tree)
    (hnode : tree.Within node) (hwhole : node.IsWhole) :
    Spells (node.cut source).toList node.ownTokens := by
  obtain ⟨tree, rfl, htree⟩ := exists_laidOut_of_parse h
  obtain ⟨node, hwithin, rfl⟩ := hnode.of_map
  rw [Node.ownTokens_map]
  rw [Node.isWhole_map] at hwhole
  rcases htree.within hwithin with rfl | ⟨hconstituent, lead, u, w, v, hss, hregular, hplaced⟩
  · -- the document is not whole
    obtain ⟨-⟩ := htree.document
    exact hwhole.elim
  · have hlead : lead = [] := by
      refine hregular.resolve_right ?_
      rintro ⟨arm, rfl⟩
      exact hwhole
    have hown : node.ownTokens ≠ [] := by
      refine hconstituent.isSolid trivial ?_
      cases node with
      | text => exact hwhole.elim
      | _ => exact id
    have htokens := hplaced.tokens_eq
    rw [hlead, List.nil_append] at htokens
    have hw : w ≠ [] := by
      rintro rfl
      exact hown htokens.symm
    have hline := htree.inLine
    rw [hss] at hline
    have hstop : node.loc.stop = lastStop (lastStop 0 u) w := by
      rw [hplaced.loc_eq]
      exact Nat.max_eq_right (Nat.le_of_lt (hline.split.2.split.1.firstStart_lt hw))
    have hcut := spells_between htree.complete hss hw (lastStop 0 u)
      (firstStart v source.toList.length)
    rw [htokens] at hcut
    have htext : ((node.map (Span.location (.ofSource source.toList))).cut source).toList =
        between source.toList node.loc.start node.loc.stop := by
      rw [Node.cut, String.toList_ofList, Node.loc_map]
      rfl
    rw [htext, hstop, hplaced.loc_eq]
    exact hcut

/-! ## The cut of a statement -/

/-- The node is a conditional, a loop, a function, a command, a comment or a call. -/
def Node.IsStatement : Node α → Prop
  | .conditional .. | .loop .. | .function .. | .command .. | .comment .. | .call .. => True
  | _ => False

/-- What an environment holds in which a statement stands alone: a precondition as it is, and
any other statement in a block. -/
def Node.asSection : Node Unit → Node Unit
  | .command _ name words =>
    if name ∈ preconditionWords then .command () name words
    else .block () [.command () name words]
  | node => .block () [node]

theorem Node.tokens_asSection (node : Node Unit) : node.asSection.tokens = node.tokens := by
  have hblock : ∀ node : Node Unit, (Node.block () [node]).tokens = node.tokens :=
    fun node => List.append_nil _
  cases node with
  | command loc name words =>
      rw [asSection]
      split
      · rfl
      · exact hblock _
  | _ => exact hblock _

theorem Statement.asBlock {node : Node Unit} (h : Statement .grouping node) :
    Section .grouping (.block () [node]) :=
  .block (.mk (List.forall_mem_singleton.2 h) fun _ => List.cons_ne_nil _ _)

theorem Constituent.asSection {node : Node Unit} (h : Constituent .grouping node)
    (hstatement : node.IsStatement) : Section .grouping node.asSection := by
  rcases h with h | h | h | h | h | h | h
  · rcases h with _ | ⟨-, -⟩
    · exact hstatement.elim
    · exact hstatement.elim
  · rcases h with _ | ⟨-, -⟩
    · exact hstatement.elim
    · exact hstatement.elim
  · rcases h with ⟨hname, hwords⟩ | ⟨-, -⟩
    · rw [Node.asSection, if_pos hname]
      exact .precondition hname hwords
    · exact hstatement.elim
  · cases node with
    | command loc name words =>
        obtain ⟨hname, hwords⟩ := h
        have hdisjoint : ∀ name ∈ statementWords, name ∉ preconditionWords := by decide
        rw [Node.asSection, if_neg (hdisjoint name hname)]
        exact (Statement.command hname hwords).asBlock
    | _ => exact h.asBlock
  · exact hstatement.elim
  · exact hstatement.elim
  · cases h <;> exact hstatement.elim

section Statements

variable {node : Node α}

theorem Node.IsStatement.isWhole (h : node.IsStatement) : node.IsWhole := by
  cases node with
  | conditional | loop | function | command | comment | call => trivial
  | _ => exact h.elim

theorem Node.IsStatement.ownTokens_eq (h : node.IsStatement) : node.ownTokens = node.tokens := by
  cases node with
  | conditional | loop | function | command | comment | call => rfl
  | _ => exact h.elim

theorem Node.isStatement_map {β : Type} (f : α → β) (node : Node α) :
    (node.map f).IsStatement ↔ node.IsStatement := by
  cases node <;> rfl

end Statements

/-- What stands in a tree that is read is, locations aside, the document or a constituent. -/
theorem constituent_of_within {source : String} {tree node : Node Location}
    (h : parse source = .ok tree) (hnode : tree.Within node) :
    Document .grouping node.erase ∨ Constituent .grouping node.erase := by
  have hparses : ParsesAs source tree.erase := congrArg (Except.map Node.erase) h
  obtain ⟨-, hgrouping, -⟩ := parsesAs_iff.1 hparses
  rcases hgrouping.within (hnode.map fun _ => ()) with heq | hconstituent
  · rw [Node.erase, heq]
    exact .inl hgrouping
  · exact .inr hconstituent

theorem spells_opening :
    Spells "\\begin{algorithmic}".toList (opening algorithmicName) :=
  ⟨⟨19, by decide +kernel⟩, by decide +kernel⟩

theorem spells_closing :
    Spells "\\end{algorithmic}".toList (closing algorithmicName) :=
  ⟨⟨17, by decide +kernel⟩, by decide +kernel⟩

/-- A statement that is cut out of its source and put into an algorithmic environment is read
as that statement. -/
theorem parse_cut_statement {source : String} {tree node : Node Location}
    (h : parse source = .ok tree) (hnode : tree.Within node) (hstatement : node.IsStatement) :
    ParsesAs ("\\begin{algorithmic}" ++ node.cut source ++ "\\end{algorithmic}")
      (.root () [.algorithmic () [node.erase.asSection]]) := by
  have herased : node.erase.IsStatement := (Node.isStatement_map _ node).2 hstatement
  have hsection : Section .grouping node.erase.asSection := by
    rcases constituent_of_within h hnode with hdocument | hconstituent
    · cases node with
      | root => exact hstatement.elim
      | _ => cases hdocument
    · exact hconstituent.asSection herased
  have hdocument : Document .grouping (.root () [.algorithmic () [node.erase.asSection]]) :=
    .mk (List.forall_mem_singleton.2 (.algorithmic
      (.mk (List.forall_mem_singleton.2 hsection) fun _ => .singleton _)))
  have hcut := spells_cut h hnode hstatement.isWhole
  rw [hstatement.ownTokens_eq] at hcut
  have hopened := spells_opening.append hcut (by rintro x ⟨⟩; trivial)
  have hclosed := hopened.append spells_closing fun x _ => stops_backslash x _
  rw [← String.toList_append, ← String.toList_append] at hclosed
  refine hclosed.parsesAs hdocument ?_
  simp [Node.tokens, Node.tokensAll, Node.tokens_asSection, Node.erase, Node.tokens_map]

/-- A statement inside a conditional. -/
theorem cut_statement_in_conditional :
    ∃ tree node, parse "\\begin{algorithmic}\\IF{a}\\STATE x\\ENDIF\\end{algorithmic}" = .ok tree ∧
      tree.Within node ∧ node.IsStatement ∧
      node.cut "\\begin{algorithmic}\\IF{a}\\STATE x\\ENDIF\\end{algorithmic}" = "\\STATE x" ∧
      ParsesAs ("\\begin{algorithmic}" ++
          node.cut "\\begin{algorithmic}\\IF{a}\\STATE x\\ENDIF\\end{algorithmic}" ++
          "\\end{algorithmic}")
        (.root () [.algorithmic () [.block ()
          [.command () "STATE" (.mk () [.leaf () (.ordinary "x")])]]]) := by
  have hparse : parse "\\begin{algorithmic}\\IF{a}\\STATE x\\ENDIF\\end{algorithmic}" =
      .ok (.root ⟨1, 1, 0, 56⟩ [.algorithmic ⟨1, 1, 0, 39⟩ [.block ⟨1, 20, 19, 39⟩
        [.conditional ⟨1, 20, 19, 39⟩
          [.mk ⟨1, 20, 19, 33⟩ (.mk ⟨1, 24, 23, 24⟩ [.leaf ⟨1, 24, 23, 24⟩ (.ordinary "a")])
            (some (.block ⟨1, 26, 25, 33⟩ [.command ⟨1, 26, 25, 33⟩ "STATE"
              (.mk ⟨1, 33, 32, 33⟩ [.leaf ⟨1, 33, 32, 33⟩ (.ordinary "x")])]))] false none]]]) := by
    rw [parse_eq_ok_iff, parse_of_toList String.toList_ofList]
    decide +kernel
  have top : ∀ {tree}, parse "\\begin{algorithmic}\\IF{a}\\STATE x\\ENDIF\\end{algorithmic}" =
      .ok tree → tree.Within tree := fun _ => .top
  have hblock := ((top hparse).step List.mem_cons_self).step List.mem_cons_self
  have harm := (hblock.step List.mem_cons_self).step List.mem_cons_self
  have hnode := (harm.step (List.mem_cons_of_mem _ List.mem_cons_self)).step List.mem_cons_self
  exact ⟨_, _, hparse, hnode, trivial, by decide +kernel, parse_cut_statement hparse hnode trivial⟩

/-! ## The cut of an environment -/

/-- The name of an environment. -/
def Node.environmentName? : Node α → Option String
  | .algorithm .. => some algorithmName
  | .algorithmic .. => some algorithmicName
  | _ => none

section Environments

variable {form : Form} {node : Node α} {name : String}

theorem Node.isWhole_of_environment (h : node.environmentName? = some name) : node.IsWhole := by
  cases node with
  | algorithm | algorithmic => trivial
  | _ => cases h

/-- The span of an environment stops in front of its closing. -/
theorem Node.tokens_of_environment (h : node.environmentName? = some name) :
    node.tokens = node.ownTokens ++ closing name := by
  cases node with
  | algorithm | algorithmic =>
      cases h
      simp [tokens, ownTokens]
  | _ => cases h

theorem Node.environmentName?_map {β : Type} (f : α → β) (node : Node α) :
    (node.map f).environmentName? = node.environmentName? := by
  cases node <;> rfl

theorem Constituent.environment_of_name (h : Constituent form node)
    (hname : node.environmentName? = some name) : Environment form node := by
  rcases h with h | h | h | h | h | h | h
  · exact h
  · cases h with
    | caption => cases hname
    | algorithmic h => exact .algorithmic h
  · rcases h with _ | ⟨-, -⟩
    · cases hname
    · cases hname
  · cases h <;> cases hname
  · cases hname
  · cases hname
  · cases h <;> cases hname

/-- In front of its closing an environment is still open. -/
theorem Environment.openEnvironments_own (h : Environment form node)
    (hname : node.environmentName? = some name) :
    openEnvironments [] (node.ownTokens ++ [.endOfSource]) = some [name] := by
  have hend : ∀ outer, openEnvironments outer [.endOfSource] = some outer := by
    intro outer
    rw [openEnvironments_cons (by simp [Token.IsFlat])]
    rfl
  cases h with
  | algorithm hparts =>
      cases hname
      rw [Node.ownTokens, List.append_assoc, openEnvironments_opening (by decide),
        openEnvironments_tokensAll fun x hx w => (hparts x hx).openEnvironments_eq, hend]
  | algorithmic h =>
      obtain ⟨hchildren, -⟩ := h
      cases hname
      rw [Node.ownTokens, List.append_assoc, openEnvironments_opening (by decide),
        openEnvironments_tokensAll fun x hx w => ?_, hend]
      exact openEnvironments_append ((hchildren x hx).forall_tokens (covers_isFlat form))

end Environments

theorem spells_end {node : Node α} {name : String} (h : node.environmentName? = some name) :
    Spells ("\\end\x7b" ++ name ++ "\x7d").toList (closing name) := by
  cases node with
  | algorithm =>
      cases h
      exact ⟨⟨15, by decide +kernel⟩, by decide +kernel⟩
  | algorithmic =>
      cases h
      exact ⟨⟨17, by decide +kernel⟩, by decide +kernel⟩
  | _ => cases h

/-- An environment that is cut out of its source lacks its closing: it cannot be read, but
with the closing behind it it is read as that environment. -/
theorem parse_cut_environment {source : String} {tree node : Node Location} {name : String}
    (h : parse source = .ok tree) (hnode : tree.Within node)
    (hname : node.environmentName? = some name) :
    ParsesAs (node.cut source ++ ("\\end\x7b" ++ name ++ "\x7d")) (.root () [node.erase]) ∧
      ¬∃ result, parse (node.cut source) = .ok result := by
  have herased : node.erase.environmentName? = some name := by
    rw [Node.erase, Node.environmentName?_map, hname]
  have henvironment : Environment .grouping node.erase := by
    rcases constituent_of_within h hnode with hdocument | hconstituent
    · cases node with
      | root => cases hname
      | _ => cases hdocument
    · exact hconstituent.environment_of_name herased
  have hcut := spells_cut h hnode (Node.isWhole_of_environment hname)
  have hown : node.erase.ownTokens = node.ownTokens := node.ownTokens_map _
  constructor
  · have hdocument : Document .grouping (.root () [node.erase]) :=
      .mk (List.forall_mem_singleton.2 henvironment)
    have hseam : ∀ x : Token, x.Stops ("\\end\x7b" ++ name ++ "\x7d").toList := by
      intro x
      rw [String.toList_append, String.toList_append]
      exact stops_backslash x _
    have hclosed := hcut.append (spells_end hname) fun x _ => hseam x
    rw [← String.toList_append] at hclosed
    refine hclosed.parsesAs hdocument ?_
    simp [Node.tokens, Node.tokensAll, Node.tokens_of_environment herased, hown]
  · rintro ⟨result, hresult⟩
    have hparses : ParsesAs (node.cut source) result.erase :=
      congrArg (Except.map Node.erase) hresult
    obtain ⟨-, hdocument, htokens⟩ := parsesAs_iff.1 hparses
    -- no environment is open behind a document
    have hopen := hdocument.openEnvironments_eq
    rw [htokens, hcut.scan_tokens, ← hown, henvironment.openEnvironments_own herased] at hopen
    cases hopen

/-- An algorithmic environment without statements ends in front of its closing. -/
theorem parse_empty_environment :
    parse "\\begin{algorithmic}\\end{algorithmic}" =
      .ok (.root ⟨1, 1, 0, 36⟩ [.algorithmic ⟨1, 1, 0, 19⟩ []]) ∧
    (Node.root (⟨1, 1, 0, 36⟩ : Location) [.algorithmic ⟨1, 1, 0, 19⟩ []]).Within
      (.algorithmic ⟨1, 1, 0, 19⟩ []) := by
  refine ⟨?_, .step .top List.mem_cons_self⟩
  rw [parse_eq_ok_iff, parse_of_toList String.toList_ofList]
  decide +kernel

/-- With its closing behind it the cut of an environment without statements is read. -/
theorem cut_empty_environment :
    ∃ tree node, parse "\\begin{algorithmic}\\end{algorithmic}" = .ok tree ∧
      tree.Within node ∧ node.environmentName? = some algorithmicName ∧
      ParsesAs (node.cut "\\begin{algorithmic}\\end{algorithmic}" ++
        ("\\end\x7b" ++ algorithmicName ++ "\x7d")) (.root () [.algorithmic () []]) ∧
      ¬∃ result, parse (node.cut "\\begin{algorithmic}\\end{algorithmic}") = .ok result := by
  obtain ⟨hparse, hnode⟩ := parse_empty_environment
  exact ⟨_, _, hparse, hnode, rfl, parse_cut_environment hparse hnode rfl⟩

/-- The cut of an environment is not always a source that is read. -/
theorem environment_cut_unread :
    ¬∀ source tree node name, parse source = .ok tree → tree.Within node →
      node.environmentName? = some name → ParsesAs (node.cut source) (.root () [node.erase]) := by
  intro hall
  obtain ⟨hparse, hnode⟩ := parse_empty_environment
  have hread := exists_parsesAs.2 ⟨_, hall _ _ _ _ hparse hnode rfl⟩
  have hcut : Node.cut "\\begin{algorithmic}\\end{algorithmic}" (.algorithmic ⟨1, 1, 0, 19⟩ []) =
      "\\begin{algorithmic}" := by
    decide +kernel
  rw [hcut, exists_parse_iff] at hread
  revert hread
  decide +kernel

end AlgoBox
