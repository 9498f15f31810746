import AlgoBox.Proofs.Annotation
import AlgoBox.Proofs.Parsing

/-!
# Normal forms

The trees that sources are read as are exactly the normal ones, and a normal
tree is what its own markup is read as (`parse_markup`). A tree is normal when it
is grouped, when no run of ordinary characters follows another one, and when all
its texts can be written.
-/

namespace AlgoBox

open AlgoBox.Symbol Grammar Token

variable {α : Type} {t : Token} {u v w : List Token}

/-- Grouped statements, texts that can be written, and no run of ordinary
characters behind another one. -/
def Form.normal : Form := ⟨Token.Valid, True, True⟩

/-- A document that can be written and is grouped in the one way in which it is
read. -/
def Node.Normal (tree : Node α) : Prop := Document .normal tree

/-- The markup of a tree: its tokens one after the other, with a blank behind
each command word. -/
def Node.markup (tree : Node α) : String := String.ofList (tree.tokens.flatMap Token.markup)

theorem Node.IsOrdinary.tokens_eq {node : Node α} (h : node.IsOrdinary) :
    ∃ content, node.tokens = [.ordinary content] :=
  match node, h with
  | .leaf _ (.ordinary content), _ => ⟨content, rfl⟩

/-! ## Trees of clean tokens -/

/-- The tokens can be written one after the other, and read back. -/
structure Clean (w : List Token) : Prop where
  valid : AllTokens Token.Valid w
  apart : NoneAdjacent Token.IsOrdinary w

namespace Clean

theorem head (h : Clean (t :: w)) : t.Valid := h.valid t List.mem_cons_self

theorem tail (h : Clean (t :: w)) : Clean w :=
  ⟨(allTokens_cons.1 h.valid).2, (List.isChain_cons.1 h.apart).2⟩

theorem left (h : Clean (u ++ v)) : Clean u :=
  ⟨(allTokens_append.1 h.valid).1, (List.isChain_append.1 h.apart).1⟩

theorem right (h : Clean (u ++ v)) : Clean v :=
  ⟨(allTokens_append.1 h.valid).2, (List.isChain_append.1 h.apart).2.1⟩

theorem of_mem {nodes : List (Node α)} (h : Clean (Node.tokensAll nodes)) :
    ∀ node ∈ nodes, Clean node.tokens := by
  induction nodes with
  | nil => simp
  | cons node rest ih =>
      rw [Node.tokensAll] at h
      exact List.forall_mem_cons.2 ⟨h.left, ih h.right⟩

theorem of_mem_body {body : Option (Node α)} (h : Clean (Node.tokensBody body)) :
    ∀ node ∈ body, Clean node.tokens := by
  intro node hnode
  subst hnode
  exact h

theorem of_mem_arms {arms : List (Branch α)} {keyword : String}
    (h : Clean (Branch.tokensAll keyword arms)) : ∀ arm ∈ arms, Clean arm.tokens := by
  induction arms generalizing keyword with
  | nil => simp
  | cons arm rest ih =>
      rw [Branch.tokensAll] at h
      exact List.forall_mem_cons.2 ⟨h.tail.left, ih h.tail.right⟩

/-- Ordinary leaves side by side are ordinary tokens side by side. -/
theorem items_apart {items : List (Node α)} (h : Clean (Node.tokensAll items)) :
    NoneAdjacent Node.IsOrdinary items := by
  induction items with
  | nil => exact .nil
  | cons item rest ih =>
      rw [Node.tokensAll] at h
      refine List.isChain_cons.2 ⟨?_, ih h.right⟩
      intro next hnext h
      obtain ⟨hitem, hordinary⟩ := h
      cases rest with
      | nil => cases hnext
      | cons next' rest =>
          cases hnext
          obtain ⟨content, hcontent⟩ := hitem.tokens_eq
          obtain ⟨content', hcontent'⟩ := hordinary.tokens_eq
          have hchain := h.apart
          rw [Node.tokensAll, hcontent, hcontent'] at hchain
          exact (List.isChain_cons_cons.1 hchain).1 ⟨trivial, trivial⟩

end Clean

theorem Item.normal {node : Node α} : Item .grouping node → Clean node.tokens → Item .normal node
  | .leaf hknown _, h => .leaf hknown h.head
  | .group hitems _, h => by
      have hclean := h.tail.left
      exact .group (fun item hitem => (hitems item hitem).normal (hclean.of_mem item hitem))
        fun _ => hclean.items_apart

theorem Words.normal {words : Phrase α} (hwords : Words .grouping words) (h : Clean words.tokens) :
    Words .normal words := by
  obtain ⟨hitems, -⟩ := hwords
  exact .mk (fun item hitem => (hitems item hitem).normal (h.of_mem item hitem))
    fun _ => h.items_apart

mutual

theorem Statement.normal {node : Node α} :
    Statement .grouping node → Clean node.tokens → Statement .normal node
  | .command hname hwords, h => .command hname (hwords.normal h.tail)
  | .comment hwords, h => .comment (hwords.normal h.tail.tail.left)
  | .call _ hargs, h => .call h.tail.left.tail.head (hargs.normal h.tail.right.tail.left)
  | .conditional hne harms helse hnone, h =>
    .conditional hne (fun arm harm => (harms arm harm).normal (h.left.of_mem_arms arm harm))
      (fun block hblock =>
        (helse block hblock).normal (h.right.right.left.of_mem_body block hblock))
      hnone
  | .loop hkeyword hcond hbody, h =>
    .loop hkeyword (hcond.normal h.tail.left.tail.left)
      fun block hblock => (hbody block hblock).normal (h.tail.right.left.of_mem_body block hblock)
  | .function hkind _ hparams hbody, h =>
    .function hkind h.tail.left.tail.head (hparams.normal h.tail.right.left.tail.left)
      fun block hblock =>
        (hbody block hblock).normal (h.tail.right.right.left.of_mem_body block hblock)

theorem Block.normal {node : Node α} :
    Block .grouping node → Clean node.tokens → Block .normal node
  | .mk hchildren hne, h =>
    .mk (fun node hnode => (hchildren node hnode).normal (h.of_mem node hnode)) hne

theorem Arm.normal {arm : Branch α} : Arm .grouping arm → Clean arm.tokens → Arm .normal arm
  | .mk hcond hbody, h =>
    .mk (hcond.normal h.left.tail.left)
      fun block hblock => (hbody block hblock).normal (h.right.of_mem_body block hblock)

end

theorem Algorithmic.normal {node : Node α} (hnode : Algorithmic .grouping node)
    (h : Clean node.tokens) : Algorithmic .normal node := by
  obtain ⟨hchildren, hapart⟩ := hnode
  have hclean := h.right.left
  refine .mk (fun child hchild => ?_) hapart
  cases hchildren child hchild with
  | precondition hname hwords =>
      exact .precondition hname (hwords.normal (hclean.of_mem _ hchild).tail)
  | block hblock => exact .block (hblock.normal (hclean.of_mem _ hchild))

theorem Part.normal {node : Node α} (hnode : Part .grouping node) (h : Clean node.tokens) :
    Part .normal node := by
  cases hnode with
  | caption hwords => exact .caption (hwords.normal h.tail.tail.left)
  | algorithmic hmk => exact .algorithmic (hmk.normal h)

theorem Environment.normal {node : Node α} (hnode : Environment .grouping node)
    (h : Clean node.tokens) : Environment .normal node := by
  cases hnode with
  | algorithm hparts =>
      exact .algorithm fun part hpart => (hparts part hpart).normal (h.right.left.of_mem part hpart)
  | algorithmic hmk => exact .algorithmic (hmk.normal h)

theorem Document.normal {node : Node α} (hnode : Document .grouping node) (h : Clean node.tokens) :
    node.Normal := by
  obtain ⟨henvironments⟩ := hnode
  exact .mk fun child hchild => (henvironments child hchild).normal (h.left.of_mem child hchild)

/-! ## Clean tokens of normal trees -/

/-- No two runs of ordinary characters stand side by side. -/
def Apart (w : List Token) : Prop := NoneAdjacent Token.IsOrdinary w

theorem apart_cons (ht : ¬t.IsOrdinary) : Apart (t :: w) ↔ Apart w := by
  refine ⟨fun h => (List.isChain_cons.1 h).2, fun h => List.isChain_cons.2 ⟨?_, h⟩⟩
  exact fun _ _ hboth => ht hboth.1

/-- What does not start with ordinary characters can stand behind anything. -/
theorem apart_append (hv : NotAhead Token.IsOrdinary v) : Apart (u ++ v) ↔ Apart u ∧ Apart v := by
  unfold Apart NoneAdjacent
  rw [List.isChain_append]
  refine ⟨fun h => ⟨h.1, h.2.1⟩, fun h => ⟨h.1, h.2, fun _ _ y hy hboth => ?_⟩⟩
  exact hv y hy hboth.2

theorem apart_braced : Apart (braced w) ↔ Apart w := by
  unfold braced
  rw [apart_cons id, apart_append (notAhead_cons.2 id)]
  exact and_iff_left (.singleton _)

theorem Item.head_isOrdinary {form : Form} {node : Node α} (h : Item form node)
    (ht : t ∈ node.tokens.head?) (hordinary : t.IsOrdinary) : node.IsOrdinary := by
  cases h with
  | leaf =>
      cases ht
      rename_i item _ _
      cases item <;> exact hordinary
  | group =>
      cases ht
      exact hordinary.elim

theorem Item.last_isOrdinary {form : Form} {node : Node α} (h : Item form node)
    (ht : t ∈ node.tokens.getLast?) (hordinary : t.IsOrdinary) : node.IsOrdinary := by
  cases h with
  | leaf =>
      cases ht
      rename_i item _ _
      cases item <;> exact hordinary
  | group =>
      rw [Node.tokens, braced, ← List.cons_append, List.getLast?_concat] at ht
      cases ht
      exact hordinary.elim

theorem apart_items {form : Form} {items : List (Node α)} (hitems : ∀ item ∈ items, Item form item)
    (happart : ∀ item ∈ items, Apart item.tokens) (hnone : NoneAdjacent Node.IsOrdinary items) :
    Apart (Node.tokensAll items) := by
  induction items with
  | nil => exact .nil
  | cons item rest ih =>
      rw [List.forall_mem_cons] at hitems happart
      obtain ⟨hnext, hrest⟩ := List.isChain_cons.1 hnone
      rw [Node.tokensAll]
      -- what is left is the seam: the last token of `item` and the first one of the next
      refine List.isChain_append.2 ⟨happart.1, ih hitems.2 happart.2 hrest, ?_⟩
      intro x hx y hy h
      obtain ⟨hxo, hyo⟩ := h
      cases rest with
      | nil => cases hy
      | cons next rest =>
          have hitem := hitems.2 next List.mem_cons_self
          obtain ⟨t, more, htokens, -⟩ := hitem.startsWith
          rw [Node.tokensAll, htokens] at hy
          cases hy
          refine hnext next rfl ⟨hitems.1.last_isOrdinary hx hxo, ?_⟩
          exact hitem.head_isOrdinary (by rw [htokens]; rfl) hyo

theorem Item.apart {node : Node α} (h : Item .normal node) : Apart node.tokens := by
  induction h with
  | leaf => exact .singleton _
  | group hitems hnone ih =>
      rw [Node.tokens, apart_braced, Phrase.tokens]
      exact apart_items hitems ih (hnone trivial)

theorem Words.apart {words : Phrase α} (h : Words .normal words) : Apart words.tokens := by
  obtain ⟨hitems, hnone⟩ := h
  rw [Phrase.tokens]
  exact apart_items hitems (fun item hitem => (hitems item hitem).apart) (hnone trivial)

/-- Nodes that do not start with ordinary characters can be written in a row. -/
theorem apart_tokensAll {P : Token → Prop} {nodes : List (Node α)}
    (happart : ∀ node ∈ nodes, Apart node.tokens)
    (hstart : ∀ node ∈ nodes, StartsWith P node.tokens) (hP : ∀ t, P t → ¬t.IsOrdinary) :
    Apart (Node.tokensAll nodes) := by
  induction nodes with
  | nil => exact .nil
  | cons node rest ih =>
      rw [List.forall_mem_cons] at happart hstart
      have hrest : NotAhead Token.IsOrdinary (Node.tokensAll rest ++ []) :=
        notAhead_tokensAll hstart.2 hP notAhead_nil
      rw [List.append_nil] at hrest
      rw [Node.tokensAll, apart_append hrest]
      exact ⟨happart.1, ih happart.2 hstart.2⟩

theorem Token.StartsStatement.not_isOrdinary {t : Token} (h : t.StartsStatement) :
    ¬t.IsOrdinary := by
  obtain ⟨name, -, rfl⟩ := h
  exact id

theorem Token.StartsSection.not_isOrdinary {t : Token} (h : t.StartsSection) : ¬t.IsOrdinary := by
  rcases h with h | ⟨name, -, rfl⟩
  · exact h.not_isOrdinary
  · exact id

theorem Token.StartsPart.not_isOrdinary {t : Token} (h : t.StartsPart) : ¬t.IsOrdinary := by
  rcases h with rfl | rfl
  · exact id
  · exact id

theorem notAhead_body {body : Option (Node α)} (h : ∀ block ∈ body, Block .normal block)
    (hv : NotAhead Token.IsOrdinary v) : NotAhead Token.IsOrdinary (Node.tokensBody body ++ v) := by
  cases body with
  | none => exact hv
  | some block =>
      exact ((h block rfl).startsWith trivial).notAhead fun t => StartsStatement.not_isOrdinary

theorem apart_body {body : Option (Node α)} (h : ∀ block ∈ body, Apart block.tokens) :
    Apart (Node.tokensBody body) := by
  cases body with
  | none => exact .nil
  | some block => exact h block rfl

theorem apart_arms {arms : List (Branch α)} {keyword : String}
    (h : ∀ arm ∈ arms, Apart arm.tokens) : Apart (Branch.tokensAll keyword arms) := by
  induction arms generalizing keyword with
  | nil => exact .nil
  | cons arm rest ih =>
      rw [List.forall_mem_cons] at h
      have hrest : NotAhead Token.IsOrdinary (Branch.tokensAll "ELIF" rest) := by
        cases rest with
        | nil => exact notAhead_nil
        | cons => exact notAhead_cons.2 id
      rw [Branch.tokensAll, apart_cons id, apart_append hrest]
      exact ⟨h.1, ih h.2⟩

theorem apart_bracedName (name : String) : Apart (Token.bracedName name) := by
  unfold Token.bracedName
  rw [apart_cons id]
  exact List.isChain_cons_cons.2 ⟨fun hboth => hboth.2, .singleton _⟩

theorem apart_opening (name : String) : Apart (opening name) :=
  (apart_cons id).2 (apart_bracedName name)

theorem apart_closing (name : String) : Apart (closing name) :=
  (apart_cons id).2 (apart_bracedName name)

/-- What stands between a keyword and the command that closes it. -/
theorem apart_closed {command : String} : Apart (w ++ [.word command]) ↔ Apart w := by
  rw [apart_append (notAhead_cons.2 id)]
  exact and_iff_left (.singleton _)

mutual

theorem Statement.apart {node : Node α} : Statement .normal node → Apart node.tokens
  | .command _ hwords => (apart_cons id).2 hwords.apart
  | .comment hwords => (apart_cons id).2 (apart_braced.2 hwords.apart)
  | .call _ hargs => by
      rw [Node.tokens, apart_cons id]
      refine (apart_append (v := braced _) (notAhead_cons.2 id)).2 ⟨apart_bracedName _, ?_⟩
      exact apart_braced.2 hargs.apart
  | .conditional _ harms helse _ => by
      have hbody : Apart (Node.tokensBody _ ++ [.word "ENDIF"]) :=
        apart_closed.2 (apart_body fun block hblock => (helse block hblock).apart)
      have harms' : Apart (Branch.tokensAll "IF" _) :=
        apart_arms fun arm harm => (harms arm harm).apart
      rw [Node.tokens]
      split
      · rw [List.singleton_append, apart_append (notAhead_cons.2 id), apart_cons id]
        exact ⟨harms', hbody⟩
      · rw [List.nil_append, apart_append (notAhead_body helse (notAhead_cons.2 id))]
        exact ⟨harms', hbody⟩
  | .loop _ hcond hbody => by
      rw [Node.tokens, apart_cons id, apart_append (notAhead_body hbody (notAhead_cons.2 id)),
        apart_braced, apart_closed]
      exact ⟨hcond.apart, apart_body fun block hblock => (hbody block hblock).apart⟩
  | .function _ _ hparams hbody => by
      rw [Node.tokens, apart_cons id]
      refine (apart_append (v := braced _ ++ _) (notAhead_cons.2 id)).2 ⟨apart_bracedName _, ?_⟩
      rw [apart_append (notAhead_body hbody (notAhead_cons.2 id)), apart_braced, apart_closed]
      exact ⟨hparams.apart, apart_body fun block hblock => (hbody block hblock).apart⟩

theorem Block.apart {node : Node α} : Block .normal node → Apart node.tokens
  | .mk hchildren _ => by
      rw [Node.tokens]
      exact apart_tokensAll (fun node hnode => (hchildren node hnode).apart)
        (fun node hnode => (hchildren node hnode).startsWith)
        fun t => StartsStatement.not_isOrdinary

theorem Arm.apart {arm : Branch α} : Arm .normal arm → Apart arm.tokens
  | .mk hcond hbody => by
      have hstart := notAhead_body hbody notAhead_nil
      rw [List.append_nil] at hstart
      rw [Branch.tokens, apart_append hstart, apart_braced]
      exact ⟨hcond.apart, apart_body fun block hblock => (hbody block hblock).apart⟩

end

theorem Section.apart {node : Node α} (h : Section .normal node) : Apart node.tokens := by
  cases h with
  | precondition _ hwords => exact (apart_cons id).2 hwords.apart
  | block hblock => exact hblock.apart

/-- Nodes inside an environment. -/
theorem apart_environment {P : Token → Prop} {nodes : List (Node α)} {name : String}
    (happart : ∀ node ∈ nodes, Apart node.tokens)
    (hstart : ∀ node ∈ nodes, StartsWith P node.tokens) (hP : ∀ t, P t → ¬t.IsOrdinary) :
    Apart (opening name ++ (Node.tokensAll nodes ++ closing name)) := by
  have hclosing : NotAhead Token.IsOrdinary (closing name) := notAhead_cons.2 id
  rw [apart_append (notAhead_tokensAll hstart hP hclosing), apart_append hclosing]
  exact ⟨apart_opening name, apart_tokensAll happart hstart hP, apart_closing name⟩

theorem Algorithmic.apart {node : Node α} (h : Algorithmic .normal node) : Apart node.tokens := by
  obtain ⟨hchildren, -⟩ := h
  rw [Node.tokens]
  exact apart_environment (fun child hchild => (hchildren child hchild).apart)
    (fun child hchild => (hchildren child hchild).startsWith trivial)
    fun t => StartsSection.not_isOrdinary

theorem Part.apart {node : Node α} (h : Part .normal node) : Apart node.tokens := by
  cases h with
  | caption hwords => exact (apart_cons id).2 (apart_braced.2 hwords.apart)
  | algorithmic hmk => exact hmk.apart

theorem Environment.apart {node : Node α} (h : Environment .normal node) : Apart node.tokens := by
  cases h with
  | algorithm hparts =>
      rw [Node.tokens]
      exact apart_environment (fun part hpart => (hparts part hpart).apart)
        (fun part hpart => (hparts part hpart).startsWith) fun t => StartsPart.not_isOrdinary
  | algorithmic hmk => exact hmk.apart

theorem Document.apart {node : Node α} (h : Document .normal node) : Apart node.tokens := by
  obtain ⟨henvironments⟩ := h
  rw [Node.tokens, apart_append (notAhead_cons.2 id)]
  refine ⟨apart_tokensAll (fun child hchild => (henvironments child hchild).apart)
    (fun child hchild => (henvironments child hchild).startsWith) ?_, .singleton _⟩
  intro t ht
  subst ht
  exact id

/-- The texts of a normal tree can be written, and only its last token is the end
of the source. -/
theorem Document.valid {node : Node α} (h : Document .normal node) :
    ∃ w, node.tokens = w ++ [.endOfSource] ∧ ∀ t ∈ w, t.Valid ∧ t ≠ .endOfSource := by
  have commands : ∀ name ∈ commandWords ++ ["begin", "end"], Token.Valid (.word name) := by
    have hletters : ∀ name ∈ commandWords ++ ["begin", "end"],
        name.toList ≠ [] ∧ name.toList.all isLetter = true := by
      decide
    intro name hname
    exact ⟨(hletters name hname).1, List.all_eq_true.1 (hletters name hname).2⟩
  have names : ∀ name ∈ [algorithmName, algorithmicName], Token.Valid (.ordinary name) := by
    have hplain : ∀ name ∈ [algorithmName, algorithmicName],
        name.toList ≠ [] ∧ (name.toList.all fun c => !Text.isBlank c && !isReserved c) = true := by
      decide
    intro name hname
    obtain ⟨hne, hall⟩ := hplain name hname
    simp only [List.all_eq_true, Bool.and_eq_true, Bool.not_eq_true'] at hall
    exact ⟨hne, fun c hc => (hall c (List.mem_of_mem_head? hc)).1, fun c hc => (hall c hc).2⟩
  have covers : Covers .normal fun t => t.Valid ∧ t ≠ .endOfSource := by
    refine ⟨fun item _ hadmits => ⟨hadmits, ?_⟩, ⟨trivial, nofun⟩, ⟨trivial, nofun⟩,
      fun name hname => ?_⟩
    · cases item <;> exact nofun
    · exact ⟨commands name (List.mem_append_left _ hname), nofun⟩
  refine h.forall_tokens covers fun name hname => ?_
  have hbegin : Token.Valid (.word "begin") := commands _ (by decide)
  have hend : Token.Valid (.word "end") := commands _ (by decide)
  have hname : Token.Valid (.ordinary name) := names name hname
  have hbraces : Token.Valid .openBrace ∧ Token.Valid .closeBrace := ⟨trivial, trivial⟩
  simp [opening, closing, Token.bracedName, hbegin, hend, hname, hbraces]

/-! ## Reading what is written -/

/-- The markup of a normal tree is read as the tree. -/
theorem parsesAs_markup {tree : Node Unit} (h : tree.Normal) : ParsesAs tree.markup tree := by
  obtain ⟨w, hw, hvalid⟩ := Document.valid h
  have hapart : NoneAdjacent Token.IsOrdinary w := by
    have happart := Document.apart h
    rw [hw] at happart
    exact (List.isChain_append.1 happart).1
  obtain ⟨htokens, length, hending⟩ := scanFrom_markup 0 hvalid hapart
  have hchars : tree.markup.toList = w.flatMap Token.markup := by
    rw [Node.markup, hw, List.flatMap_append, String.toList_ofList]
    exact List.append_nil _
  have hgrouped : Document .grouping tree := by
    have hadmits : ∀ t, Form.normal.admits t → Form.grouping.admits t := fun _ _ => trivial
    exact Document.mono hadmits False.elim id h
  refine parsesAs_iff.2 ⟨⟨length, ?_⟩, hgrouped, ?_⟩
  · rw [hchars]
    exact hending
  · unfold Scan.tokens Scan.stream
    rw [hchars, List.map_append]
    change _ = (scanFrom _ 0 _).symbols.map token ++ (scanFrom _ 0 _).ending.symbols.map token
    rw [htokens, hending, hw]
    rfl

/-- What a source is read as is normal. -/
theorem ParsesAs.normal {source : String} {tree : Node Unit} (h : ParsesAs source tree) :
    tree.Normal := by
  obtain ⟨⟨length, hlength⟩, hdocument, htokens⟩ := parsesAs_iff.1 h
  refine hdocument.normal ?_
  rw [htokens]
  unfold Scan.tokens Scan.stream
  rw [hlength, List.map_append]
  refine ⟨allTokens_append.2 ⟨?_, ?_⟩, ?_⟩
  · intro t ht
    obtain ⟨x, hx, rfl⟩ := List.mem_map.1 ht
    exact (valid_of_mem_scanFrom 0 _ x hx).2
  · exact allTokens_cons.2 ⟨trivial, allTokens_nil⟩
  · exact (apart_append (notAhead_cons.2 id)).2 ⟨apart_scanFrom 0 _, .singleton _⟩

theorem normal_of_parse {source : String} {tree : Node Source.Location}
    (h : parse source = .ok tree) : tree.Normal := by
  have hparses : ParsesAs source tree.erase := congrArg (Except.map Node.erase) h
  exact Document.of_map _ tree hparses.normal

/-- Reading undoes writing, and the trees that sources are read as are exactly the
normal ones. -/
theorem parse_markup (tree : Node Unit) :
    ((∃ source, ParsesAs source tree) ↔ tree.Normal) ∧
    (ParsesAs tree.markup tree ↔ tree.Normal) :=
  ⟨⟨fun ⟨_, h⟩ => h.normal, fun h => ⟨tree.markup, parsesAs_markup h⟩⟩,
    ⟨ParsesAs.normal, parsesAs_markup⟩⟩

end AlgoBox
