import AlgoBox.Proofs.Parts

/-!
# Where nodes stand

A node is written as tokens of its own and its parts in turn (`Node.pieces`). `Placed`
says of a node that some symbols are those of its pieces, and that the span of the node
and that of every node in it reaches from its first symbol to its last one. A span
without symbols is the place of the next one.

* `PlacedAll.tokens_eq`: the tokens of the symbols are those of the pieces;
* `Placed.within`: what stands in a node that is placed is placed among its symbols.
-/

namespace AlgoBox

open AlgoBox.Symbol Grammar Token

variable {α β : Type}

/-! ## Pieces -/

/-- A piece of what a node is written with: a token of the node itself, or a part with the
tokens in front of it that its span includes. -/
inductive Piece (α : Type) where
  | token (t : Token)
  | part (lead : List Token) (node : Node α)

/-- The tokens that the span of a node includes: those of a phrase without its braces,
those of an environment without its closing, and those of a document without the end of
the source. -/
def Node.ownTokens : Node α → List Token
  | .text words => words.tokens
  | .algorithm _ children => opening algorithmName ++ Node.tokensAll children
  | .algorithmic _ children => opening algorithmicName ++ Node.tokensAll children
  | .root _ children => Node.tokensAll children
  | node => node.tokens

namespace Piece

/-- The tokens of a piece. -/
def tokens : Piece α → List Token
  | token t => [t]
  | part lead node => lead ++ node.ownTokens

/-- The part that a piece is. -/
def part? : Piece α → Option (Node α)
  | token _ => none
  | part _ node => some node

theorem tokens_tokens (ts : List Token) : (ts.map (token (α := α))).flatMap tokens = ts := by
  induction ts with
  | nil => rfl
  | cons t rest ih => exact congrArg (t :: ·) ih

theorem filterMap_part?_token (t : Token) (pieces : List (Piece α)) :
    (token t :: pieces).filterMap part? = pieces.filterMap part? := rfl

theorem filterMap_part?_part (lead : List Token) (node : Node α) (pieces : List (Piece α)) :
    (part lead node :: pieces).filterMap part? = node :: pieces.filterMap part? := rfl

theorem filterMap_part?_tokens (ts : List Token) :
    (ts.map (token (α := α))).filterMap part? = [] := by
  simp [part?]

end Piece

/-- A node with the tokens around it that its span does not include. -/
def Node.enclosed (node : Node α) : List (Piece α) :=
  match node with
  | .text _ => [.token .openBrace, .part [] node, .token .closeBrace]
  | .algorithm .. => .part [] node :: (closing algorithmName).map .token
  | .algorithmic .. => .part [] node :: (closing algorithmicName).map .token
  | .root .. => [.part [] node, .token .endOfSource]
  | _ => [.part [] node]

/-- Nodes behind each other. -/
def Node.enclosedAll (nodes : List (Node α)) : List (Piece α) := nodes.flatMap Node.enclosed

/-- A node with the tokens around it, if there is one. -/
def Node.enclosed? : Option (Node α) → List (Piece α)
  | none => []
  | some node => node.enclosed

/-- Arms behind each other, the first one with a given keyword. -/
def Branch.pieces (keyword : String) : List (Branch α) → List (Piece α)
  | [] => []
  | arm :: rest => .part [.word keyword] (.branch arm) :: Branch.pieces "ELIF" rest

/-- What a node is written with, in order. -/
def Node.pieces : Node α → List (Piece α)
  | .bare _ => []
  | .root _ children => enclosedAll children
  | .algorithm _ children => (opening algorithmName).map .token ++ enclosedAll children
  | .algorithmic _ children => (opening algorithmicName).map .token ++ enclosedAll children
  | .block _ children => enclosedAll children
  | .text words => enclosedAll words.items
  | .caption _ words => .token (.word "caption") :: enclosed (.text words)
  | .comment _ words => .token (.word "COMMENT") :: enclosed (.text words)
  | .command _ name words => [.token (.word name), .part [] (.text words)]
  | .call _ name args =>
    .token (.word "CALL") :: ((bracedName name).map .token ++ enclosed (.text args))
  | .branch (.mk _ cond body) => enclosed (.text cond) ++ enclosed? body
  | .conditional _ arms hasElse elseBody =>
    Branch.pieces "IF" arms ++ ((if hasElse then [.token (.word "ELSE")] else [])
      ++ (enclosed? elseBody ++ [.token (.word "ENDIF")]))
  | .loop _ keyword cond body =>
    .token (.word keyword) :: (enclosed (.text cond)
      ++ (enclosed? body ++ [.token (.word ("END" ++ keyword))]))
  | .function _ keyword name params body =>
    .token (.word keyword) :: ((bracedName name).map .token ++ (enclosed (.text params)
      ++ (enclosed? body ++ [.token (.word ("END" ++ keyword))])))
  | .leaf _ item => [.token item.token]

namespace Node

theorem tokens_enclosed (node : Node α) : node.enclosed.flatMap Piece.tokens = node.tokens := by
  cases node with
  | algorithm | algorithmic =>
      simp only [enclosed, List.flatMap_cons, Piece.tokens_tokens, Piece.tokens, ownTokens, tokens,
        List.nil_append, List.append_assoc]
  | _ => simp [enclosed, Piece.tokens, ownTokens, tokens, braced]

theorem tokens_enclosedAll (nodes : List (Node α)) :
    (enclosedAll nodes).flatMap Piece.tokens = tokensAll nodes := by
  induction nodes with
  | nil => rfl
  | cons node rest ih =>
      rw [enclosedAll, List.flatMap_cons, List.flatMap_append, tokens_enclosed]
      exact congrArg (node.tokens ++ ·) ih

theorem tokens_enclosed? (body : Option (Node α)) :
    (enclosed? body).flatMap Piece.tokens = tokensBody body := by
  cases body with
  | none => rfl
  | some node => exact node.tokens_enclosed

theorem tokens_armPieces (keyword : String) (arms : List (Branch α)) :
    (Branch.pieces keyword arms).flatMap Piece.tokens = Branch.tokensAll keyword arms := by
  induction arms generalizing keyword with
  | nil => rfl
  | cons arm rest ih =>
      rw [Branch.pieces, List.flatMap_cons, ih]
      rfl

/-- The pieces of a node are written with its tokens. -/
theorem tokens_pieces (node : Node α) : node.pieces.flatMap Piece.tokens = node.ownTokens := by
  cases node with
  | branch arm =>
      obtain ⟨loc, cond, body⟩ := arm
      simp [pieces, tokens_enclosed, tokens_enclosed?, ownTokens, tokens, Branch.tokens]
  | text words =>
      obtain ⟨loc, items⟩ := words
      exact tokens_enclosedAll items
  | conditional loc arms hasElse elseBody =>
      cases hasElse <;>
        simp [pieces, tokens_armPieces, tokens_enclosed?, Piece.tokens, ownTokens, tokens]
  | _ =>
      simp [pieces, tokens_enclosed, tokens_enclosedAll, tokens_enclosed?, Piece.tokens_tokens,
        Piece.tokens, ownTokens, tokens]

theorem part?_enclosed (node : Node α) : node.enclosed.filterMap Piece.part? = [node] := by
  cases node <;> rfl

theorem part?_enclosedAll (nodes : List (Node α)) :
    (enclosedAll nodes).filterMap Piece.part? = nodes := by
  induction nodes with
  | nil => rfl
  | cons node rest ih =>
      rw [enclosedAll, List.flatMap_cons, List.filterMap_append, part?_enclosed]
      exact congrArg (node :: ·) ih

theorem part?_enclosed? (body : Option (Node α)) :
    (enclosed? body).filterMap Piece.part? = body.toList := by
  cases body with
  | none => rfl
  | some node => exact node.part?_enclosed

theorem part?_armPieces (keyword : String) (arms : List (Branch α)) :
    (Branch.pieces keyword arms).filterMap Piece.part? = arms.map .branch := by
  induction arms generalizing keyword with
  | nil => rfl
  | cons arm rest ih =>
      exact congrArg (Node.branch arm :: ·) (ih "ELIF")

/-- The parts of a node are those among its pieces. -/
theorem part?_pieces (node : Node α) : node.pieces.filterMap Piece.part? = node.parts := by
  cases node with
  | branch arm =>
      obtain ⟨loc, cond, body⟩ := arm
      simp [pieces, part?_enclosed, part?_enclosed?, parts]
  | text words => exact part?_enclosedAll words.items
  | conditional loc arms hasElse elseBody =>
      cases hasElse <;>
        simp [pieces, part?_armPieces, part?_enclosed?, Piece.filterMap_part?_token, parts]
  | _ =>
      simp only [pieces, part?_enclosed, part?_enclosedAll, part?_enclosed?,
        Piece.filterMap_part?_token, Piece.filterMap_part?_part, Piece.filterMap_part?_tokens,
        List.filterMap_append,
        List.filterMap_nil, List.append_nil, List.nil_append, List.singleton_append, parts]

end Node

/-! ## Symbols behind each other -/

/-- The start of the first of some symbols, in front of `next`. -/
def firstStart (ss : List Symbol) (next : Nat) : Nat := ss.foldr (fun s _ => s.start) next

/-- The end of the last of some symbols, behind `before`. -/
def lastStop (before : Nat) (ss : List Symbol) : Nat := ss.foldl (fun _ s => s.stop) before

/-- The span from the first to the last of some symbols. -/
def Grammar.Span.over (before : Nat) (ss : List Symbol) (next : Nat) : Span :=
  ⟨firstStart ss next, max (firstStart ss next) (lastStop before ss)⟩

section Stretches

variable {before next : Nat} {s : Symbol} {u v ss : List Symbol}

@[simp] theorem firstStart_nil : firstStart [] next = next := rfl

@[simp] theorem firstStart_cons : firstStart (s :: ss) next = s.start := rfl

@[simp] theorem lastStop_nil : lastStop before [] = before := rfl

@[simp] theorem lastStop_cons : lastStop before (s :: ss) = lastStop s.stop ss := rfl

@[simp] theorem firstStart_append :
    firstStart (u ++ v) next = firstStart u (firstStart v next) := List.foldr_append

@[simp] theorem lastStop_append :
    lastStop before (u ++ v) = lastStop (lastStop before u) v := List.foldl_append

end Stretches

/-! ## Nodes among symbols -/

mutual

/-- The symbols, of which the first `lead` are in front of the node, are those of the
node, and all spans are as the symbols say. The last symbol before them ends at `before`,
and the next one starts at `next`. -/
inductive Placed : List Token → Nat → List Symbol → Nat → Node Span → Prop
  | mk {lead : List Token} {before next : Nat} {ss : List Symbol} {node : Node Span} :
      node.loc = .over before ss next → PlacedAll before ss next (lead.map .token ++ node.pieces) →
      Placed lead before ss next node

/-- The symbols are those of the pieces, one behind the other. -/
inductive PlacedAll : Nat → List Symbol → Nat → List (Piece Span) → Prop
  | nil {before next : Nat} : PlacedAll before [] next []
  | token {before next : Nat} {s : Symbol} {ss : List Symbol} {t : Token}
      {pieces : List (Piece Span)} : s.token = t → PlacedAll s.stop ss next pieces →
      PlacedAll before (s :: ss) next (.token t :: pieces)
  | part {before next : Nat} {ss u v : List Symbol} {lead : List Token} {node : Node Span}
      {pieces : List (Piece Span)} : ss = u ++ v → Placed lead before u (firstStart v next) node →
      PlacedAll (lastStop before u) v next pieces →
      PlacedAll before ss next (.part lead node :: pieces)

end

section Placing

variable {before next : Nat} {u v ss : List Symbol} {lead : List Token} {node : Node Span}
  {pieces more : List (Piece Span)}

theorem Placed.loc_eq (h : Placed lead before ss next node) :
    node.loc = .over before ss next := by
  obtain ⟨hloc, -⟩ := h
  exact hloc

theorem Placed.all (h : Placed lead before ss next node) :
    PlacedAll before ss next (lead.map .token ++ node.pieces) := by
  obtain ⟨-, hall⟩ := h
  exact hall

/-- A part and nothing behind it. -/
theorem PlacedAll.single (h : Placed lead before ss next node) :
    PlacedAll before ss next [.part lead node] :=
  .part (List.append_nil ss).symm h .nil

theorem PlacedAll.append (h : PlacedAll before u (firstStart v next) pieces)
    (hmore : PlacedAll (lastStop before u) v next more) :
    PlacedAll before (u ++ v) next (pieces ++ more) := by
  induction pieces generalizing before u with
  | nil =>
      cases h
      exact hmore
  | cons piece pieces ih =>
      cases h with
      | token ht hrest => exact .token ht (ih hrest hmore)
      | part hu hnode hrest =>
          subst hu
          rw [lastStop_append] at hmore
          refine .part (List.append_assoc _ _ _) ?_ (ih hrest hmore)
          rwa [firstStart_append]

theorem PlacedAll.split (h : PlacedAll before ss next (pieces ++ more)) :
    ∃ u v, ss = u ++ v ∧ PlacedAll before u (firstStart v next) pieces ∧
      PlacedAll (lastStop before u) v next more := by
  induction pieces generalizing before ss with
  | nil => exact ⟨[], ss, rfl, .nil, h⟩
  | cons piece pieces ih =>
      cases h with
      | token ht hrest =>
          obtain ⟨u, v, rfl, hu, hv⟩ := ih hrest
          exact ⟨_ :: u, v, rfl, .token ht hu, hv⟩
      | @part _ _ _ w w' _ _ _ hw hnode hrest =>
          obtain ⟨u, v, rfl, hu, hv⟩ := ih hrest
          refine ⟨w ++ u, v, ?_, .part rfl ?_ hu, ?_⟩
          · rw [hw, List.append_assoc]
          · rwa [firstStart_append] at hnode
          · rwa [lastStop_append]

/-- Symbols of the tokens of a node. -/
theorem PlacedAll.of_tokens {ts : List Token} (h : ss.map Symbol.token = ts) :
    PlacedAll before ss next (ts.map .token) := by
  subst h
  induction ss generalizing before with
  | nil => exact .nil
  | cons s ss ih => exact .token rfl ih

end Placing

mutual

theorem Placed.tokens_eq {lead : List Token} {before next : Nat} {ss : List Symbol}
    {node : Node Span} :
    Placed lead before ss next node → ss.map Symbol.token = lead ++ node.ownTokens
  | .mk _ hall => by
      rw [hall.tokens_eq, List.flatMap_append, Piece.tokens_tokens, Node.tokens_pieces]

/-- Symbols of pieces have the tokens of the pieces. -/
theorem PlacedAll.tokens_eq {before next : Nat} {ss : List Symbol} {pieces : List (Piece Span)} :
    PlacedAll before ss next pieces → ss.map Symbol.token = pieces.flatMap Piece.tokens
  | .nil => rfl
  | .token ht hrest => by
      rw [List.map_cons, hrest.tokens_eq, ht]
      rfl
  | .part hss hnode hrest => by
      rw [hss, List.map_append, hnode.tokens_eq, hrest.tokens_eq]
      rfl

end

/-! ## Parts among the symbols of their owner -/

/-- Only in front of an arm does a span include tokens that are not of the node. -/
def Piece.Regular : Piece α → Prop
  | .token _ => True
  | .part lead node => lead = [] ∨ ∃ arm, node = .branch arm

theorem Piece.regular_token (t : Token) : (token t : Piece α).Regular := trivial

theorem Piece.regular_tokens (ts : List Token) : ts.Forall (Regular (α := α) ∘ token) :=
  List.forall_iff_forall_mem.2 fun t _ => regular_token t

theorem Node.regular_enclosed (node : Node α) : node.enclosed.Forall Piece.Regular := by
  cases node <;> simp [enclosed, Piece.Regular, Piece.regular_tokens]

theorem Node.regular_enclosedAll (nodes : List (Node α)) :
    (enclosedAll nodes).Forall Piece.Regular := by
  induction nodes with
  | nil => trivial
  | cons node rest ih => exact List.forall_append.2 ⟨node.regular_enclosed, ih⟩

theorem Node.regular_enclosed? (body : Option (Node α)) :
    (enclosed? body).Forall Piece.Regular := by
  cases body with
  | none => trivial
  | some node => exact node.regular_enclosed

theorem Branch.regular_pieces (arms : List (Branch α)) (keyword : String) :
    (Branch.pieces keyword arms).Forall Piece.Regular := by
  induction arms generalizing keyword with
  | nil => trivial
  | cons arm rest ih => exact (List.forall_cons _ _ _).2 ⟨.inr ⟨arm, rfl⟩, ih "ELIF"⟩

theorem Node.regular_pieces (node : Node α) : node.pieces.Forall Piece.Regular := by
  cases node with
  | branch arm =>
      obtain ⟨loc, cond, body⟩ := arm
      exact List.forall_append.2 ⟨regular_enclosed _, regular_enclosed? _⟩
  | conditional loc arms hasElse elseBody =>
      cases hasElse <;>
        simp [pieces, Branch.regular_pieces, regular_enclosed?, Piece.regular_token]
  | command => exact ⟨trivial, .inl rfl⟩
  | _ =>
      simp [pieces, regular_enclosed, regular_enclosedAll, regular_enclosed?, Piece.regular_token,
        Piece.regular_tokens]

section Parts

variable {before next : Nat} {ss : List Symbol} {lead : List Token} {node part tree : Node Span}
  {pieces : List (Piece Span)}

/-- The node is placed somewhere among the symbols. -/
def PlacedIn (before : Nat) (ss : List Symbol) (next : Nat) (node : Node Span) : Prop :=
  ∃ lead u w v, ss = u ++ (w ++ v) ∧ Piece.Regular (.part lead node) ∧
    Placed lead (lastStop before u) w (firstStart v next) node

/-- A part among pieces that are placed is placed. -/
theorem PlacedAll.part_among (h : PlacedAll before ss next pieces)
    (hpart : .part lead node ∈ pieces) :
    ∃ u w v, ss = u ++ (w ++ v) ∧ Placed lead (lastStop before u) w (firstStart v next) node := by
  obtain ⟨front, back, rfl⟩ := List.append_of_mem hpart
  obtain ⟨u, rest, rfl, -, hrest⟩ := h.split
  cases hrest with
  | part hrest hnode _ =>
      subst hrest
      exact ⟨u, _, _, rfl, hnode⟩

theorem PlacedAll.parts_in (h : PlacedAll before ss next node.pieces) (hpart : part ∈ node.parts) :
    PlacedIn before ss next part := by
  rw [← Node.part?_pieces] at hpart
  obtain ⟨piece, hmem, hpiece⟩ := List.mem_filterMap.1 hpart
  cases piece with
  | token => cases hpiece
  | part lead part' =>
      cases hpiece
      obtain ⟨u, w, v, hss, hplaced⟩ := h.part_among hmem
      exact ⟨lead, u, w, v, hss, List.forall_iff_forall_mem.1 node.regular_pieces _ hmem, hplaced⟩

theorem PlacedIn.parts (h : PlacedIn before ss next node) (hpart : part ∈ node.parts) :
    PlacedIn before ss next part := by
  obtain ⟨lead, u, w, v, rfl, -, hnode⟩ := h
  obtain ⟨w', w'', rfl, -, hpieces⟩ := hnode.all.split
  obtain ⟨lead', u', x, v', rfl, hregular, hplaced⟩ := hpieces.parts_in hpart
  refine ⟨lead', u ++ (w' ++ u'), x, v' ++ v, by simp, hregular, ?_⟩
  simpa using hplaced

/-- What stands in a tree whose parts are placed is placed, but for the tree itself. -/
theorem PlacedAll.within (h : PlacedAll before ss next tree.pieces) (hnode : tree.Within node) :
    node = tree ∨ PlacedIn before ss next node := by
  induction hnode with
  | top => exact .inl rfl
  | step _ hpart ih =>
      rcases ih with rfl | hplaced
      · exact .inr (h.parts_in hpart)
      · exact .inr (hplaced.parts hpart)

end Parts

end AlgoBox
