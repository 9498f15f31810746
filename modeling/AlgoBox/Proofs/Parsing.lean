import AlgoBox.Proofs.Completeness
import AlgoBox.Proofs.Grouping
import AlgoBox.Proofs.Scanning
import AlgoBox.Proofs.Soundness

/-!
# Parsing

What reading a source comes to. A source is read if and only if its tokens are a
sentence, and the tree is the one grouped derivation tree of that sentence
(`parse_iff_sentence`). Soundness gives a derivation tree for every tree that is
read, regrouping makes it a grouped one, and completeness says that a grouped
one is what is read.
-/

namespace AlgoBox

open AlgoBox.Symbol Grammar Reader

variable {r : Reader} {ss : List Symbol} {ending : Ending}

/-! ## Readers -/

/-- A reader that is read as a document has the tokens of a derivation tree in
front of it, and its source is cut to its end. -/
theorem exists_document_of_read {node : Node Span} (hr : Ahead ending r ss)
    (h : Grammar.read r = .ok node) :
    (∃ length, ending = .complete length) ∧ Document .any node.erase ∧
      node.erase.tokens = ss.map token := by
  unfold Grammar.read at h
  cases hend : document r.remaining r with
  | error fault r' =>
      rw [hend] at h
      cases h
  | ok read r' =>
      rw [hend] at h
      cases h
      obtain ⟨s, hs, hr'⟩ := document_reaches_end hr hend
      have hsound := (document_sound r.remaining).ends hr
      rw [hend] at hsound
      cases hsound with
      | reads ws hss hrest hnode =>
          obtain rfl := hrest.unique hr'
          refine ⟨hr'.complete_of_end hs, hnode.1, ?_⟩
          rw [hnode.2, hss, List.map_append, List.map_cons, hs, List.map_nil]

/-- A reader with the tokens of a grouped tree in front of it, and nothing that
cannot be recognized behind them, is read as that tree. -/
theorem exists_read_of_document {length : Nat} {tree : Node Unit}
    (hr : Ahead (.complete length) r ss) (htree : Document .grouping tree)
    (htokens : tree.tokens = ss.map token) :
    ∃ node, Grammar.read r = .ok node ∧ node.erase = tree := by
  obtain ⟨w, hw, hfollows⟩ := document_follows htree
  have hagrees : Agrees 0 ss (w ++ [.endOfSource]) := by
    rw [← hw, htokens]
    exact agrees_map 0 ss
  have hkeeps := hfollows.keeps hr (Nat.le_refl _) hagrees
  -- full agreement leaves nothing to disagree about
  have hnone : ∀ {r' : Reader} {ss' : List Symbol}, Ahead (.complete length) r' ss' →
      ¬ss'.length ≤ 0 := by
    intro r' ss' hr' hle
    obtain ⟨s, rest, rfl⟩ := hr'.exists_cons
    exact absurd hle (Nat.not_succ_le_zero _)
  unfold Grammar.read
  cases hend : document r.remaining r with
  | ok node r' =>
      rw [hend] at hkeeps
      cases hkeeps with
      | reads hnode => exact ⟨node, rfl, hnode⟩
      | leaves hreaches =>
          cases hreaches with
          | ok hr' hle => exact absurd hle (hnone hr')
  | error fault r' =>
      rw [hend] at hkeeps
      cases hkeeps with
      | leaves hreaches =>
          cases hreaches with
          | error hr' hle => exact absurd hle (hnone hr')
          | unrecognized he => cases he

theorem exists_ofScan (symbols : List Symbol) (length : Nat) :
    ∃ r, ofScan ⟨symbols, .complete length⟩ = .ok r := by
  cases symbols with
  | nil => exact ⟨_, rfl⟩
  | cons s rest => exact ⟨_, rfl⟩

/-- A sentence has one grouped derivation tree. -/
theorem Document.unique {tree tree' : Node Unit} (h : Document .grouping tree)
    (h' : Document .grouping tree') (htokens : tree.tokens = tree'.tokens) : tree = tree' := by
  obtain ⟨w, hw, hinside⟩ := h.endOfSource_last
  -- the tokens are read from a source that has each of them at offset 0
  obtain ⟨r, hr⟩ := exists_ofScan (w.map (Token.symbolAt · 0)) 0
  have hproper : ∀ x ∈ w.map (Token.symbolAt · 0), x.Proper := by
    intro x hx
    obtain ⟨t, ht, rfl⟩ := List.mem_map.1 hx
    exact Token.proper_symbolAt (hinside t ht) 0
  have hstream :
      (Scan.stream ⟨w.map (Token.symbolAt · 0), .complete 0⟩).map token = tree.tokens := by
    have hsame : ∀ t ∈ w, (t.symbolAt 0).token = t :=
      fun t ht => Token.token_symbolAt (hinside t ht) 0
    rw [hw, Scan.stream, List.map_append, List.map_map]
    exact congrArg (· ++ _) ((List.map_congr_left hsame).trans (List.map_id w))
  have hahead := Ahead.of_ofScan hproper hr
  obtain ⟨node, hread, rfl⟩ := exists_read_of_document hahead h hstream.symm
  obtain ⟨node', hread', rfl⟩ := exists_read_of_document hahead h' (htokens.symm.trans hstream.symm)
  rw [hread] at hread'
  cases hread'
  rfl

/-! ## Sources -/

/-- Why a source is not read. -/
def fault? (source : String) : Option Fault :=
  match parse source with
  | .error fault => some fault
  | .ok _ => none

theorem parse_eq_error_iff {source : String} {fault : Fault} :
    parse source = .error fault ↔ fault? source = some fault := by
  unfold fault?
  cases parse source with
  | error fault' => simp
  | ok tree => simp

theorem exists_parse_iff {source : String} :
    (∃ tree, parse source = .ok tree) ↔ fault? source = none := by
  unfold fault?
  cases parse source with
  | error fault => simp
  | ok tree => simp

theorem parse_eq_ok_iff {source : String} {tree : Node Source.Location} :
    parse source = .ok tree ↔ (parse source).toOption = some tree := by
  cases parse source with
  | error fault => simp [Except.toOption]
  | ok tree' => simp [Except.toOption]

/-- Reading a source is making a reader, reading a document, and locating its
nodes. -/
theorem parse_eq (source : String) :
    parse source = (Reader.ofSource source.toList).bind fun r =>
      (Grammar.read r).map (Node.map (Grammar.Span.location (.ofSource source.toList))) := by
  unfold parse
  dsimp only
  cases Reader.ofSource source.toList with
  | error fault => rfl
  | ok r =>
      show (Grammar.read r >>= _) = (Grammar.read r).map _
      cases Grammar.read r <;> rfl

/-- A text holds its characters encoded, and to decode them is most of the work of an evaluation.
Where a source is evaluated, it is taken apart first. -/
theorem parse_of_toList {source : String} {text : List Char} (h : source.toList = text) :
    parse source = (Reader.ofSource text).bind fun r =>
      (Grammar.read r).map (Node.map (Grammar.Span.location (.ofSource text))) := by
  rw [← h]
  exact parse_eq source

theorem toList_append_ofList {l m : List Char} :
    (String.ofList l ++ String.ofList m).toList = l ++ m := by
  rw [String.toList_append, String.toList_ofList, String.toList_ofList]

theorem toList_append_append_ofList {l m n : List Char} :
    (String.ofList l ++ String.ofList m ++ String.ofList n).toList = l ++ m ++ n := by
  rw [String.toList_append, toList_append_ofList, String.toList_ofList]

/-- A source is read as a tree, locations aside. -/
def ParsesAs (source : String) (tree : Node Unit) : Prop :=
  (parse source).map Node.erase = .ok tree

theorem ahead_scan {source : List Char} (h : ofSource source = .ok r) :
    Ahead (scan source).ending r (scan source).stream :=
  .of_ofScan (fun x hx => (valid_of_mem_scanFrom 0 source x hx).1) h

/-- A source without a reader has no symbols, and its fault is where the first one would start. -/
theorem ofSource_error {source : List Char} {f : Fault} (h : ofSource source = .error f) :
    f.cause = .unrecognizable ∧ (scan source).ending = .unrecognized f.offset ∧
      (scan source).stream = [] := by
  unfold ofSource at h
  generalize scan source = sc at h
  obtain ⟨symbols, ending⟩ := sc
  cases symbols with
  | cons s rest => cases h
  | nil =>
      cases ending with
      | complete length => cases h
      | unrecognized offset =>
          cases h
          exact ⟨rfl, rfl, rfl⟩

theorem parsesAs_iff_read {source : String} {tree : Node Unit} :
    ParsesAs source tree ↔
      ∃ r node, ofSource source.toList = .ok r ∧ Grammar.read r = .ok node ∧ node.erase = tree := by
  have hparse : (parse source).map Node.erase =
      (ofSource source.toList).bind fun r => (Grammar.read r).map Node.erase := by
    unfold parse
    dsimp only
    cases ofSource source.toList with
    | error fault => rfl
    | ok r =>
        show (Grammar.read r >>= _).map _ = (Grammar.read r).map _
        cases Grammar.read r with
        | error fault => rfl
        | ok node => exact congrArg Except.ok (Node.erase_map _ node)
  unfold ParsesAs
  rw [hparse]
  cases hsource : ofSource source.toList with
  | error fault => simp [Except.bind]
  | ok r =>
      cases hread : Grammar.read r with
      | error fault => simp [Except.bind, Except.map, hread]
      | ok node => simp [Except.bind, Except.map, hread]

theorem exists_parsesAs {source : String} :
    (∃ tree, parse source = .ok tree) ↔ ∃ tree, ParsesAs source tree := by
  unfold ParsesAs
  cases parse source with
  | error fault => simp [Except.map]
  | ok tree => simp [Except.map]

/-- A source is read as the grouped derivation tree of its tokens. -/
theorem parsesAs_iff {source : String} {tree : Node Unit} :
    ParsesAs source tree ↔ (scan source.toList).IsComplete ∧ Document .grouping tree ∧
      tree.tokens = (scan source.toList).tokens := by
  rw [parsesAs_iff_read]
  constructor
  · intro h
    obtain ⟨r, node, hr, hread, rfl⟩ := h
    obtain ⟨hcomplete, hdocument, htokens⟩ := exists_document_of_read (ahead_scan hr) hread
    -- what is read is the grouped tree of the same tokens
    obtain ⟨tree, htree, hsame⟩ := hdocument.regroup
    obtain ⟨length, hlength⟩ := hcomplete
    have hahead := ahead_scan hr
    rw [hlength] at hahead
    obtain ⟨node', hread', rfl⟩ := exists_read_of_document hahead htree (hsame.trans htokens)
    rw [hread] at hread'
    cases hread'
    exact ⟨⟨length, hlength⟩, htree, htokens⟩
  · intro h
    obtain ⟨⟨length, hlength⟩, htree, htokens⟩ := h
    obtain ⟨r, hr⟩ : ∃ r, ofSource source.toList = .ok r := by
      obtain ⟨r, hr⟩ := exists_ofScan (scan source.toList).symbols length
      exact ⟨r, by rw [ofSource, ← hr, ← hlength]⟩
    have hahead := ahead_scan hr
    rw [hlength] at hahead
    obtain ⟨node, hread, herase⟩ := exists_read_of_document hahead htree htokens
    exact ⟨r, node, hr, hread, herase⟩

/-- A source is read if and only if it is cut to its end and its tokens are a
sentence. It is read as the one derivation tree of that sentence whose
statements are grouped into maximal, non-empty blocks. -/
theorem parse_iff_sentence (source : String) :
    ((∃ tree, parse source = .ok tree) ↔
      (scan source.toList).IsComplete ∧ Sentence (scan source.toList).tokens) ∧
    ∀ tree, ParsesAs source tree ↔ (scan source.toList).IsComplete ∧
      ∀ other, (Document .grouping other ∧ other.tokens = (scan source.toList).tokens) ↔
        other = tree := by
  constructor
  · rw [exists_parsesAs]
    constructor
    · intro h
      obtain ⟨tree, htree⟩ := h
      obtain ⟨hcomplete, hdocument, htokens⟩ := parsesAs_iff.1 htree
      exact ⟨hcomplete, tree, hdocument.any, htokens⟩
    · intro h
      obtain ⟨hcomplete, tree, htree, htokens⟩ := h
      obtain ⟨grouped, hgrouped, hsame⟩ := htree.regroup
      exact ⟨grouped, parsesAs_iff.2 ⟨hcomplete, hgrouped, hsame.trans htokens⟩⟩
  · intro tree
    rw [parsesAs_iff]
    constructor
    · intro h
      obtain ⟨hcomplete, hdocument, htokens⟩ := h
      refine ⟨hcomplete, fun other => ⟨?_, ?_⟩⟩
      · intro h
        obtain ⟨hother, hsame⟩ := h
        exact hother.unique hdocument (hsame.trans htokens.symm)
      · intro heq
        subst heq
        exact ⟨hdocument, htokens⟩
    · intro h
      obtain ⟨hcomplete, honly⟩ := h
      exact ⟨hcomplete, (honly tree).2 rfl⟩

end AlgoBox
