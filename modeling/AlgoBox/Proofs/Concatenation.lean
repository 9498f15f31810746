import AlgoBox.Proofs.Locating
import AlgoBox.Proofs.Spans

/-!
# Sources behind each other

If a source that is read is put in front of another one, its environments come first
and those of the other source follow, at their new places; and where the other source
cannot be read, the two fail for the same cause at the moved offset
(`parse_append`).

The environments of the first source are read as if nothing followed, up to the last
closing brace (`environments_extends`), and from there on the reader sees what a reader
of the second source sees, further behind (`Reader.Behind`).
-/

namespace AlgoBox

open AlgoBox.Symbol Reader Source Correspondence

variable {β γ : Type}

/-! ## The same symbols further behind -/

/-- The second reader sees what the first one sees, moved by `k`. It may have consumed
symbols in front of these. -/
structure Reader.Behind (k : Nat) (r r' : Reader) : Prop where
  current : r'.current = r.current.move k
  upcoming : r'.upcoming = r.upcoming.map (Symbol.move k)
  ending : r'.ending = r.ending.move k
  lastEnd : r.lastEnd = r'.lastEnd - k

theorem Reader.Behind.remaining_eq {k : Nat} {r r' : Reader} (h : r.Behind k r') :
    r.remaining = r'.remaining := by
  simp only [remaining, h.current, h.upcoming, Symbol.move, List.length_map]

theorem Reader.Behind.consume {k : Nat} {r r' : Reader} (h : r.Behind k r') :
    (∃ text s s', Reader.consume r = .ok text s ∧ Reader.consume r' = .ok text s' ∧ s.Behind k s') ∨
    ∃ fault fault' s s', Reader.consume r = .error fault s ∧ Reader.consume r' = .error fault' s' ∧
      fault.cause = fault'.cause ∧ fault'.offset = fault.offset + k := by
  obtain ⟨current, upcoming, ending, lastText, lastEnd⟩ := r
  obtain ⟨current', upcoming', ending', lastText', lastEnd'⟩ := r'
  obtain ⟨rfl, rfl, rfl, -⟩ := h
  have hstop : current.stop = (current.move k).stop - k := (Nat.add_sub_cancel _ _).symm
  cases upcoming with
  | cons s rest => exact .inl ⟨_, _, _, rfl, rfl, rfl, rfl, rfl, hstop⟩
  | nil =>
      cases ending with
      | complete length => exact .inl ⟨_, _, _, rfl, rfl, rfl, rfl, rfl, hstop⟩
      | unrecognized offset => exact .inr ⟨_, _, _, _, rfl, rfl, rfl, rfl⟩

/-- A span in a source with `k` more characters in front of it. -/
def Grammar.Span.move (k : Nat) (span : Grammar.Span) : Grammar.Span :=
  ⟨span.start + k, span.stop + k⟩

/-- A reader and one that sees the same further behind, for a function of spans. -/
def Correspondence.shifted (k : Nat) (f : Grammar.Span → γ) : Correspondence where
  Place := γ
  first span := f (span.move k)
  second := f
  Meets offset offset' := offset' = offset + k
  Rel r r' := r.Behind k r'
  Left _ := False
  label_eq hr := by rw [hr.current]; rfl
  start_meets hr := by rw [hr.current]; rfl
  span_eq := by
    rintro r r' start _ hr rfl
    have hlast := hr.lastEnd
    refine congrArg f ?_
    simp only [Grammar.Span.move, Grammar.Span.mk.injEq, true_and]
    omega
  consume h := by
    rcases h.consume with hok | herror
    · exact .inr (.inl hok)
    · exact .inr (.inr herror)
  left_end := left_end_of_never
  same := False.elim

/-! ## The same symbols with others behind them -/

/-- The second reader sees what the first one sees, with other symbols in place of the
end. No symbol of the first one ends behind `k`. -/
structure Reader.Extends (k : Nat) (more : Scan) (r r' : Reader) : Prop where
  current : r'.current = r.current
  upcoming : r'.upcoming = r.upcoming ++ more.symbols
  ending : r'.ending = more.ending
  lastEnd : r'.lastEnd = r.lastEnd
  inside : ∀ x ∈ r.current :: r.upcoming, x.kind ≠ .endOfSource ∧ x.stop ≤ k
  complete : ∃ length, r.ending = .complete length

/-- The reader is at the end of its source. -/
structure Reader.AtEnd (r : Reader) : Prop where
  kind_eq : r.current.kind = .endOfSource
  upcoming : r.upcoming = []
  complete : ∃ length, r.ending = .complete length

/-- Behind a symbol that is not the last one the readers go on together. -/
theorem Reader.Extends.step {k : Nat} {more : Scan} {r r' : Reader} (h : r.Extends k more r')
    {next : Symbol} {rest : List Symbol} (hupcoming : r.upcoming = next :: rest) :
    ∃ text s s', Reader.consume r = .ok text s ∧ Reader.consume r' = .ok text s' ∧
      s.Extends k more s' := by
  obtain ⟨current, upcoming, ending, lastText, lastEnd⟩ := r
  obtain rfl : upcoming = next :: rest := hupcoming
  obtain ⟨current', upcoming', ending', lastText', lastEnd'⟩ := r'
  obtain ⟨hcurrent, hupcoming, hending, hlast, hinside, hcomplete⟩ := h
  dsimp only at *
  subst hcurrent hupcoming hending hlast
  exact ⟨_, _, _, rfl, rfl, rfl, rfl, rfl, rfl, (List.forall_mem_cons.1 hinside).2, hcomplete⟩

/-- A reader and one in whose source others symbols follow, for a function of spans. -/
def Correspondence.extended (k : Nat) (more : Scan) (f : Grammar.Span → γ) : Correspondence where
  Place := γ
  first := f
  second := f
  Meets := Eq
  Rel r r' := r.Extends k more r'
  Left := Reader.AtEnd
  label_eq hr := by rw [hr.current]
  start_meets hr := by rw [hr.current]
  span_eq := by
    rintro r r' start _ hr rfl
    rw [hr.lastEnd]
  consume := by
    intro r r' h
    cases hupcoming : r.upcoming with
    | cons next rest => exact .inr (.inl (h.step hupcoming))
    | nil =>
        obtain ⟨current, upcoming, ending, lastText, lastEnd⟩ := r
        obtain ⟨length, rfl⟩ := h.complete
        obtain rfl : upcoming = [] := hupcoming
        exact .inl ⟨rfl, rfl, length, rfl⟩
  left_end := by
    rintro ⟨current, upcoming, ending, lastText, lastEnd⟩ ⟨hkind, hupcoming, length, hending⟩
    obtain rfl : upcoming = [] := hupcoming
    obtain rfl : ending = .complete length := hending
    exact ⟨hkind, rfl, rfl, length, rfl⟩
  same _ := ⟨rfl, fun _ => rfl⟩

/-! ## Runs that give a result -/

section Runs

variable {p : ReadM β} {f : β → ReadM γ} {r s : Reader} {b : β} {c : γ}

/-- A closing brace that is read is consumed, and a reader with the same symbol in front
of it consumes it too. -/
theorem consume_of_closeBrace (h : Grammar.closeBrace r = .ok () s) :
    r.current.kind = .closeBrace ∧ ∃ text, consume r = .ok text s ∧ ∀ r', r'.current = r.current →
      Grammar.closeBrace r' = (consume >>= fun _ => pure ()) r' := by
  have hrun : ∀ r : Reader, expect .closeBrace .any r =
      if r.current.kind ≠ .closeBrace then
        .error ⟨.wrongKind .closeBrace r.current.kind, r.current.start⟩ r
      else consume r := by
    intro r
    show (if r.current.kind ≠ .closeBrace then _ else _ : ReadM String) r = _
    split <;> rfl
  obtain ⟨text, t, htext, ht⟩ := exists_of_bind_ok (p := expect .closeBrace .any) h
  cases ht
  rw [hrun r] at htext
  by_cases hkind : r.current.kind ≠ .closeBrace
  · rw [if_pos hkind] at htext
    cases htext
  · rw [if_neg hkind] at htext
    refine ⟨not_not.1 hkind, text, htext, fun r' hr' => ?_⟩
    show EStateM.bind (expect .closeBrace .any) _ r' = EStateM.bind consume _ r'
    unfold EStateM.bind
    rw [hrun r', hr', if_neg hkind]
    rfl

/-- Where no environment is opened nothing is consumed. -/
theorem eq_of_openEnvironment_none {bound : Nat}
    (h : (Grammar.Calls.bounded bound).openEnvironment? r = .ok none s) : s = r := by
  unfold Grammar.Calls.openEnvironment? at h
  rw [Grammar.environment?_bind_apply] at h
  unfold Grammar.word? at h
  simp only [bind_assoc, pure_bind] at h
  obtain ⟨found, t, hfound, h⟩ := exists_of_bind_ok h
  cases found with
  | none =>
      obtain rfl := eq_of_accept_none hfound
      cases h
      rfl
  | some text =>
      obtain ⟨name, t', -, h⟩ := exists_of_bind_ok h
      split at h
      · obtain ⟨_, _, -, h⟩ := exists_of_bind_ok h
        cases h
      · split at h
        · obtain ⟨_, _, -, h⟩ := exists_of_bind_ok h
          cases h
        · cases h

end Runs

/-! ## Past the last closing brace -/

/-- A reader in front of some symbols, where others were consumed before. -/
def Reader.after (lastText : Option String) (lastEnd : Nat) (r : Reader) : Reader :=
  { r with lastText, lastEnd }

theorem remaining_of_ofScan {scan : Scan} {r : Reader} (h : ofScan scan = .ok r) :
    r.remaining ≤ scan.symbols.length := by
  obtain ⟨symbols, ending⟩ := scan
  cases symbols with
  | cons s rest =>
      cases h
      unfold remaining
      split
      · exact Nat.zero_le _
      · exact Nat.le_refl _
  | nil =>
      cases ending with
      | complete length =>
          cases h
          exact Nat.le_refl _
      | unrecognized offset => cases h

/-- Behind the last symbol of the first source the second reader comes to the symbols
that follow there, if one can be recognized. -/
theorem Reader.Extends.cross {k : Nat} {more : Scan} {r r' : Reader} (h : r.Extends k more r')
    (hupcoming : r.upcoming = []) :
    (∃ fault s, ofScan more = .error fault ∧ consume r' = .error fault s) ∨
    ∃ t text lastText lastEnd, ofScan more = .ok t ∧ lastEnd ≤ k ∧
      consume r' = .ok text (t.after lastText lastEnd) := by
  obtain ⟨current', upcoming', ending', lastText', lastEnd'⟩ := r'
  obtain ⟨symbols, ending⟩ := more
  have hstop := (h.inside _ List.mem_cons_self).2
  have hcurrent := h.current
  have hsymbols := h.upcoming
  have hending := h.ending
  rw [hupcoming] at hsymbols
  dsimp only [List.nil_append] at *
  subst hcurrent hsymbols hending
  cases upcoming' with
  | cons s rest => exact .inr ⟨_, _, _, _, rfl, hstop, rfl⟩
  | nil =>
      cases ending' with
      | complete length => exact .inr ⟨_, _, _, _, rfl, hstop, rfl⟩
      | unrecognized offset => exact .inl ⟨_, _, rfl, rfl⟩

/-- The closing brace of an environment is read by both readers. If it is the last symbol
of the first source, the second reader comes to the symbols that follow there. -/
theorem Grammar.closeBrace_extends {k : Nat} {more : Scan} {r r' s : Reader}
    (h : r.Extends k more r') (hclose : closeBrace r = .ok () s) :
    (∃ s', closeBrace r' = .ok () s' ∧ s.Extends k more s') ∨
    s.current.kind = .endOfSource ∧
      ((∃ fault s', ofScan more = .error fault ∧ closeBrace r' = .error fault s') ∨
      ∃ t lastText lastEnd, ofScan more = .ok t ∧ lastEnd ≤ k ∧
        closeBrace r' = .ok () (t.after lastText lastEnd)) := by
  obtain ⟨-, text, hconsume, hsame⟩ := consume_of_closeBrace hclose
  rw [hsame r' h.current]
  show (∃ s', EStateM.bind consume _ r' = _ ∧ _) ∨
    _ ∧ ((∃ _ s', _ ∧ EStateM.bind consume _ r' = _) ∨
      ∃ _ _ _, _ ∧ _ ∧ EStateM.bind consume _ r' = _)
  unfold EStateM.bind
  cases hupcoming : r.upcoming with
  | cons next rest =>
      obtain ⟨text, u, u', hu, hu', hextends⟩ := h.step hupcoming
      rw [hconsume] at hu
      cases hu
      rw [hu']
      exact .inl ⟨u', rfl, hextends⟩
  | nil =>
      have hend : s.current.kind = .endOfSource := by
        obtain ⟨current, upcoming, ending, lastText, lastEnd⟩ := r
        obtain ⟨length, rfl⟩ := h.complete
        obtain rfl : upcoming = [] := hupcoming
        cases hconsume
        rfl
      rcases h.cross hupcoming with ⟨fault, u, hmore, hu⟩ |
        ⟨t, text, lastText, lastEnd, hmore, hle, hu⟩
      · rw [hu]
        exact .inr ⟨hend, .inl ⟨fault, u, hmore, rfl⟩⟩
      · rw [hu]
        exact .inr ⟨hend, .inr ⟨t, lastText, lastEnd, hmore, hle, rfl⟩⟩

/-- An environment of the first source, up to its closing brace, is read in the same way
if other symbols follow. -/
theorem Grammar.openEnvironment_extends {k : Nat} {more : Scan} (f : Span → γ)
    {bound bound' : Nat} {r r' t : Reader} {node : Node Span} (h : r.Extends k more r')
    (hpos : 0 < r.remaining) (hbound : r.remaining - 1 ≤ bound) (hbound' : r.remaining - 1 ≤ bound')
    (hrun : (Calls.bounded bound).openEnvironment? r = .ok (some node) t)
    (hkind : t.current.kind = .closeBrace) :
    ∃ node' t', (Calls.bounded bound').openEnvironment? r' = .ok (some node') t' ∧
      t.Extends k more t' ∧
      node.map f = node'.map f ∧ t.remaining ≤ r.remaining - 1 := by
  have hcalls := bounded_alike (C := .extended k more f) hbound hbound'
  have hends := (openEnvironment?_alike hcalls).ends h (by omega)
  rw [hrun] at hends
  generalize (Calls.bounded bound').openEnvironment? r' = x' at hends ⊢
  cases hends with
  | left hleft => cases hleft.kind_eq.symm.trans hkind
  | ok hagree hrel hpost =>
      rename_i found' t'
      cases (hagree : Option.Rel _ _ found') with
      | some hnode => exact ⟨_, t', rfl, hrel, hnode, hpost⟩

/-- Environments with which the first source ends are read in the same way if other
symbols follow, and reading goes on behind them. -/
theorem Grammar.environments_extends {k : Nat} {more : Scan} (f : Span → γ) {bound bound' : Nat}
    {r r' s : Reader} {nodes : List (Node Span)} (h : r.Extends k more r')
    (hbound : r.remaining ≤ bound) (hbound' : r.remaining + more.symbols.length ≤ bound')
    (hrun : environments bound r = .ok nodes s) (hend : s.current.kind = .endOfSource) :
    (∃ fault s', ofScan more = .error fault ∧ environments bound' r' = .error fault s') ∨
    ∃ t lastText lastEnd bound'' nodes', ofScan more = .ok t ∧ lastEnd ≤ k ∧
      t.remaining ≤ bound'' ∧ nodes.map (Node.map f) = nodes'.map (Node.map f) ∧
      environments bound' r' =
        (do return nodes' ++ (← environments bound'')) (t.after lastText lastEnd) := by
  induction bound generalizing bound' r r' nodes with
  | zero =>
      have hinside := (h.inside _ List.mem_cons_self).1
      simp only [remaining, if_neg hinside] at hbound
      omega
  | succ bound ih =>
      have hinside := (h.inside _ List.mem_cons_self).1
      have hpos : 0 < r.remaining := by
        rw [remaining, if_neg hinside]
        exact Nat.succ_pos _
      obtain ⟨bound', rfl⟩ : ∃ b, bound' = b + 1 := ⟨bound' - 1, by omega⟩
      rw [Calls.environments_succ, Calls.environmentsRound_eq] at hrun
      obtain ⟨found, t, hfound, hbehind⟩ := exists_of_bind_ok hrun
      cases found with
      | none =>
          -- an environment has to be opened, since the end is not in front of the reader
          obtain rfl := eq_of_openEnvironment_none hfound
          cases hbehind
          exact absurd hend hinside
      | some node =>
          obtain ⟨⟨⟩, u, hclose, hbehind⟩ := exists_of_bind_ok hbehind
          obtain ⟨rest, v, hrest, hbehind⟩ := exists_of_bind_ok hbehind
          change environments bound u = .ok rest v at hrest
          cases hbehind
          obtain ⟨hkind, text, hconsume, -⟩ := consume_of_closeBrace hclose
          have hfits : r.remaining - 1 ≤ bound ∧ r.remaining - 1 ≤ bound' := by omega
          obtain ⟨node', t', hfound', hextends, hnode, hle⟩ :=
            openEnvironment_extends f h hpos hfits.1 hfits.2 hfound hkind
          have hshorter : u.remaining ≤ t.remaining - 1 :=
            remaining_consume (hkind ▸ (by decide)) hconsume
          have hgo : environments (bound' + 1) r' =
              (do closeBrace; return node' :: (← environments bound')) t' := by
            rw [Calls.environments_succ, Calls.environmentsRound_eq]
            exact bind_ok hfound'
          rw [hgo]
          rcases closeBrace_extends hextends hclose with ⟨u', hu', hextends⟩ |
            ⟨hended, ⟨fault, s', hmore, herror⟩ | ⟨t₀, lastText, lastEnd, hmore, hlast, hu'⟩⟩
          · -- further environments follow in the first source
            rw [bind_ok hu']
            have hfits : u.remaining + more.symbols.length ≤ bound' := by omega
            rcases ih hextends (by omega) hfits hrest with ⟨fault, s', hmore, herror⟩ |
              ⟨t₀, lastText, lastEnd, bound'', rest', hmore, hlast, hle, hnodes, hgoes⟩
            · exact .inl ⟨fault, s', hmore, bind_error herror⟩
            · refine .inr
                ⟨t₀, lastText, lastEnd, bound'', node' :: rest', hmore, hlast, hle, ?_, ?_⟩
              · rw [List.map_cons, List.map_cons, hnode, hnodes]
              · rw [bind_congr_apply hgoes]
                simp only [bind_assoc, pure_bind, List.cons_append]
          · exact .inl ⟨fault, s', hmore, bind_error herror⟩
          · -- this was the last one
            rw [Calls.idle_environments hended bound] at hrest
            cases hrest
            refine .inr ⟨t₀, lastText, lastEnd, bound', [node'], hmore, hlast, ?_, ?_, ?_⟩
            · have := remaining_of_ofScan hmore
              omega
            · rw [List.map_cons, List.map_cons, hnode]
            · rw [bind_ok hu']
              rfl

/-! ## Reading on in the second source -/

/-- What an outcome gives. -/
def Reader.result : Outcome β → Except Fault β
  | .ok b _ => .ok b
  | .error fault _ => .error fault

/-- The rest of a document behind some environments. -/
def Grammar.restOf (nodes : List (Node Grammar.Span)) (bound : Nat) :
    ReadM (Node Grammar.Span) := do
  let children ← environments bound
  discard (expect .endOfSource .any)
  return .root (← spanFrom 0) (nodes ++ children)

theorem Grammar.read_eq (r : Reader) : read r = result (document r.remaining r) := by
  unfold read
  cases document r.remaining r <;> rfl

/-- The rest of a document further behind: the same environments at their new places, or
a fault of the same cause at its new offset. -/
theorem Grammar.restOf_behind {k : Nat} (f : Span → γ) {r r' : Reader} (h : r.Behind k r')
    {bound : Nat} (hbound : r.remaining ≤ bound) (nodes : List (Node Span)) :
    (∃ span children span' children', read r = .ok (.root span children) ∧
      result (restOf nodes bound r') = .ok (.root span' (nodes ++ children')) ∧
      children.map (Node.map fun span => f (span.move k)) = children'.map (Node.map f)) ∨
    ∃ fault, read r = .error fault ∧
      result (restOf nodes bound r') = .error ⟨fault.cause, fault.offset + k⟩ := by
  let C := Correspondence.shifted k f
  let view : C.View (Node Span) :=
    { Agree := fun node node' => ∃ span children span' children', node = .root span children ∧
        node' = .root span' (nodes ++ children') ∧
        children.map (Node.map C.first) = children'.map (Node.map C.second)
      same := False.elim }
  have hends : C.Ends view (fun _ _ => True) (document r.remaining r) (restOf nodes bound r') := by
    unfold document restOf
    simp only [discard_eq, bind_assoc, pure_bind]
    refine ((bounded_alike (C := C) (Nat.le_refl _) hbound).environments.ends h
      (Nat.le_refl _)).bind ?_
      fun _ _ => False.elim
    intro children children' s s' hchildren hs _
    refine (expect_ends (C := C) .any hs fun _ _ _ _ => trivial).bind ?_ fun _ _ => False.elim
    rintro _ _ t t' _ ht _
    have hmap := View.mapAll_eq hchildren
    rw [Node.mapAll_eq, Node.mapAll_eq] at hmap
    exact .ok ⟨_, _, _, _, rfl, rfl, hmap⟩ ht trivial
  rw [read_eq]
  generalize document r.remaining r = x at *
  generalize restOf nodes bound r' = y at *
  cases hends with
  | ok hagree _ _ =>
      obtain ⟨span, children, span', children', rfl, rfl, hmap⟩ := hagree
      exact .inl ⟨span, children, span', children', rfl, rfl, hmap⟩
  | @error fault fault' _ _ hcause hoffset =>
      obtain ⟨cause, offset⟩ := fault'
      cases hcause
      cases hoffset
      exact .inr ⟨fault, rfl, rfl⟩
  | left hleft => exact hleft.elim

/-- Readers of a cut and of the same cut further behind. -/
theorem ofScan_move (k : Nat) (scan : Scan) :
    (∃ fault, ofScan scan = .error fault ∧
      ofScan (scan.move k) = .error ⟨fault.cause, fault.offset + k⟩) ∨
    ∃ t t', ofScan scan = .ok t ∧ ofScan (scan.move k) = .ok t' ∧
      ∀ lastText lastEnd, lastEnd ≤ k → t.Behind k (t'.after lastText lastEnd) := by
  have hlast : ∀ {lastEnd}, lastEnd ≤ k → 0 = lastEnd - k := fun h => (Nat.sub_eq_zero_of_le h).symm
  obtain ⟨symbols, ending⟩ := scan
  cases symbols with
  | cons s rest => exact .inr ⟨_, _, rfl, rfl, fun _ _ hle => ⟨rfl, rfl, rfl, hlast hle⟩⟩
  | nil =>
      cases ending with
      | complete length => exact .inr ⟨_, _, rfl, rfl, fun _ _ hle => ⟨rfl, rfl, rfl, hlast hle⟩⟩
      | unrecognized offset => exact .inl ⟨_, rfl, rfl⟩

/-! ## The first source -/

/-- The last token of an environment is its closing brace. -/
theorem Environment.getLast?_tokens {α : Type} {form : Form} {node : Node α}
    (h : Environment form node) : node.tokens.getLast? = some .closeBrace := by
  have hclosing : ∀ (name : String) (w : List Token),
      (Token.opening name ++ (w ++ Token.closing name)).getLast? = some .closeBrace := by
    intro name w
    simp [Token.closing, Token.bracedName, List.getLast?_append]
  cases h with
  | algorithm _ => exact hclosing _ _
  | algorithmic h =>
      obtain ⟨-, -⟩ := h
      exact hclosing _ _

theorem getLast?_environments {α : Type} {form : Form} {nodes : List (Node α)}
    (h : ∀ node ∈ nodes, Environment form node) :
    ∀ t ∈ (Node.tokensAll nodes).getLast?, t = .closeBrace := by
  induction nodes with
  | nil => exact nofun
  | cons node rest ih =>
      obtain ⟨hnode, hrest⟩ := List.forall_mem_cons.1 h
      intro t ht
      rw [Node.tokensAll, List.getLast?_append, hnode.getLast?_tokens] at ht
      cases hlast : (Node.tokensAll rest).getLast? with
      | none =>
          rw [hlast] at ht
          cases ht
          rfl
      | some t' =>
          rw [hlast] at ht
          cases ht
          exact ih hrest _ hlast

/-- A source that is read ends with a closing brace, if it has symbols at all. -/
theorem closeBrace_of_parse {source : String} {tree : Node Location}
    (h : parse source = .ok tree) :
    (scan source.toList).IsComplete ∧
      ∀ x ∈ (scan source.toList).symbols.getLast?, x.token = .closeBrace := by
  have hparses : ParsesAs source tree.erase := by rw [ParsesAs, h]; rfl
  obtain ⟨hcomplete, hdocument, htokens⟩ := parsesAs_iff.1 hparses
  refine ⟨hcomplete, ?_⟩
  obtain ⟨length, hlength⟩ := hcomplete
  generalize tree.erase = tree' at hdocument htokens
  obtain ⟨henvironments⟩ := hdocument
  rename_i children
  rw [Scan.tokens, Scan.stream, hlength, List.map_append] at htokens
  have htokens : Node.tokensAll children = (scan source.toList).symbols.map token :=
    List.append_cancel_right htokens
  intro x hx
  refine getLast?_environments henvironments x.token ?_
  rw [htokens, List.getLast?_map, Option.mem_def.1 hx]
  rfl

/-- A document that is read consists of environments, and behind them is the end. -/
theorem Grammar.environments_of_read {r : Reader} {node : Node Span} (h : read r = .ok node) :
    ∃ span nodes s, node = .root span nodes ∧ environments r.remaining r = .ok nodes s ∧
      s.current.kind = .endOfSource := by
  rw [read_eq] at h
  cases hrun : document r.remaining r with
  | error fault t =>
      rw [hrun] at h
      cases h
  | ok tree t =>
      rw [hrun] at h
      cases h
      unfold document at hrun
      simp only [discard_eq, bind_assoc, pure_bind] at hrun
      obtain ⟨nodes, s, hnodes, hrun⟩ := exists_of_bind_ok hrun
      obtain ⟨text, u, htext, hrun⟩ := exists_of_bind_ok hrun
      cases hrun
      refine ⟨_, nodes, s, rfl, hnodes, ?_⟩
      change (if s.current.kind ≠ .endOfSource then _ else _ : ReadM String) s = _ at htext
      by_contra hkind
      rw [if_pos hkind] at htext
      cases htext

theorem Reader.after_of_ofScan {scan : Scan} {r : Reader} (h : ofScan scan = .ok r) :
    r.after none 0 = r := by
  obtain ⟨symbols, ending⟩ := scan
  cases symbols with
  | cons s rest => cases h; rfl
  | nil => cases ending <;> cases h; rfl

/-- Reading two sources behind each other: the environments of the first one, and then
the rest of a document in front of the symbols of the second one. -/
theorem read_append {text₁ : List Char} (text₂ : List Char) (f : Grammar.Span → γ) {r s : Reader}
    {nodes : List (Node Grammar.Span)} (hr : ofSource text₁ = .ok r)
    (hcomplete : (scan text₁).IsComplete)
    (hlast : ∀ x ∈ (scan text₁).symbols.getLast?, x.token = .closeBrace)
    (hrun : Grammar.environments r.remaining r = .ok nodes s)
    (hend : s.current.kind = .endOfSource) :
    (∃ fault, ofScan ((scan text₂).move text₁.length) = .error fault ∧
      (ofSource (text₁ ++ text₂)).bind Grammar.read = .error fault) ∨
    ∃ t lastText lastEnd bound nodes', ofScan ((scan text₂).move text₁.length) = .ok t ∧
      lastEnd ≤ text₁.length ∧ t.remaining ≤ bound ∧
      nodes.map (Node.map f) = nodes'.map (Node.map f) ∧
      (ofSource (text₁ ++ text₂)).bind Grammar.read =
        result (Grammar.restOf nodes' bound (t.after lastText lastEnd)) := by
  have hstops : ∀ x ∈ (scan text₁).symbols.getLast?, x.token.Stops text₂ := by
    intro x hx
    rw [hlast x hx]
    trivial
  have hinside : ∀ x ∈ (scan text₁).symbols, x.kind ≠ .endOfSource ∧ x.stop ≤ text₁.length := by
    intro x hx
    have hstop := ((within_scanFrom 0 text₁).1 x hx).2
    rw [Nat.zero_add] at hstop
    exact ⟨(valid_of_mem_scanFrom 0 text₁ x hx).1.kind_ne, hstop⟩
  unfold ofSource at hr ⊢
  rw [scan_append hcomplete hstops]
  generalize (scan text₂).move text₁.length = more
  obtain ⟨length, hlength⟩ := hcomplete
  generalize scan text₁ = cut at *
  obtain ⟨symbols, ending⟩ := cut
  obtain rfl : ending = .complete length := hlength
  cases symbols with
  | nil =>
      -- nothing but blanks is in front of the second source
      cases hr
      rw [Grammar.Calls.idle_environments rfl] at hrun
      cases hrun
      rw [Scan.behind, List.nil_append]
      cases hmore : ofScan more with
      | error fault => exact .inl ⟨fault, rfl, rfl⟩
      | ok t =>
          refine .inr ⟨t, none, 0, t.remaining, [], rfl, Nat.zero_le _, Nat.le_refl _, rfl, ?_⟩
          rw [Reader.after_of_ofScan hmore]
          exact Grammar.read_eq t
  | cons x rest =>
      cases hr
      let r' : Reader := ⟨x, rest ++ more.symbols, more.ending, none, 0⟩
      have hkind : x.kind ≠ .endOfSource := (hinside x List.mem_cons_self).1
      have hextends : Reader.Extends text₁.length more ⟨x, rest, .complete length, none, 0⟩ r' :=
        ⟨rfl, rfl, rfl, rfl, hinside, length, rfl⟩
      have hremaining : Reader.remaining ⟨x, rest, .complete length, none, 0⟩ +
          more.symbols.length ≤ r'.remaining := by
        simp only [remaining, r', if_neg hkind, List.length_append]
        omega
      show (∃ fault, _ ∧ Grammar.read r' = _) ∨ ∃ _ _ _ _ _, _ ∧ _ ∧ _ ∧ _ ∧ Grammar.read r' = _
      rw [Grammar.read_eq]
      rcases Grammar.environments_extends f hextends (Nat.le_refl _) hremaining hrun hend with
        ⟨fault, s', hmore, herror⟩ |
        ⟨t, lastText, lastEnd, bound, nodes', hmore, hle, hbound, hnodes, hgoes⟩
      · refine .inl ⟨fault, hmore, ?_⟩
        unfold Grammar.document
        rw [bind_error herror]
        rfl
      · refine .inr ⟨t, lastText, lastEnd, bound, nodes', hmore, hle, hbound, hnodes, ?_⟩
        unfold Grammar.document
        rw [bind_congr_apply hgoes]
        simp only [bind_assoc, pure_bind]
        rfl

/-! ## Trees -/

/-- A location moved by `k` characters in a source: lines and columns are counted anew. -/
def Source.Location.moveIn (source : List Char) (k : Nat) (l : Location) : Location :=
  .ofOffset source (l.start + k) (some (l.stop + k))

/-- Spans of the first of two sources have the same location in both together. -/
theorem location_append_left {text₁ : List Char} (text₂ : List Char) {start stop : Nat}
    (hstart : start ≤ stop) (hstop : stop ≤ text₁.length) :
    Grammar.Span.location (.ofSource (text₁ ++ text₂)) ⟨start, stop⟩ =
      Grammar.Span.location (.ofSource text₁) ⟨start, stop⟩ := by
  have hle : start ≤ text₁.length := Nat.le_trans hstart hstop
  unfold Grammar.Span.location
  dsimp only
  rw [LineTable.location_eq hle, LineTable.location_eq (by rw [List.length_append]; omega),
    Location.ofOffset_append hle]

/-- Spans of the second of two sources are moved to their location in both together. -/
theorem location_append_right (text₁ : List Char) {text₂ : List Char} {start stop : Nat}
    (hstart : start ≤ stop) (hstop : stop ≤ text₂.length) :
    Grammar.Span.location (.ofSource (text₁ ++ text₂)) (.move text₁.length ⟨start, stop⟩) =
      (Grammar.Span.location (.ofSource text₂) ⟨start, stop⟩).moveIn (text₁ ++ text₂)
        text₁.length := by
  unfold Grammar.Span.location Grammar.Span.move
  dsimp only
  rw [LineTable.location_eq (by rw [List.length_append]; omega)]
  rfl

/-- What is read of a source with a tree: a reader in front of it, and the environments
as the grammar gives them, of which the tree is made by locating them. -/
theorem exists_of_parse {source : String} {tree : Node Location} (h : parse source = .ok tree) :
    ∃ r span nodes s, ofSource source.toList = .ok r ∧ Grammar.read r = .ok (.root span nodes) ∧
      Grammar.environments r.remaining r = .ok nodes s ∧ s.current.kind = .endOfSource ∧
      tree.children = nodes.map (Node.map (Grammar.Span.location (.ofSource source.toList))) := by
  rw [parse_eq] at h
  cases hr : ofSource source.toList with
  | error fault =>
      rw [hr] at h
      cases h
  | ok r =>
      rw [hr] at h
      cases hread : Grammar.read r with
      | error fault =>
          change (Grammar.read r).map _ = _ at h
          rw [hread] at h
          cases h
      | ok node =>
          change (Grammar.read r).map _ = _ at h
          rw [hread] at h
          cases h
          obtain ⟨span, nodes, s, rfl, hrun, hend⟩ := Grammar.environments_of_read hread
          exact ⟨r, span, nodes, s, rfl, hread, hrun, hend, Node.mapAll_eq _ nodes⟩

/-- Sources behind each other. Let the first source be read. If the second one is read,
then so are both together, and their environments are those of the first and behind them
those of the second, every location of these moved by the length of the first source
with its line and column counted in both together. If the second one is not read, then
neither are both together, for the same cause at the moved offset. -/
theorem parse_append {source₁ : String} {tree₁ : Node Location} (h : parse source₁ = .ok tree₁)
    (source₂ : String) :
    (∀ tree₂, parse source₂ = .ok tree₂ → ∃ loc, parse (source₁ ++ source₂) =
      .ok (.root loc (tree₁.children ++ tree₂.children.map
        (Node.map (Location.moveIn (source₁ ++ source₂).toList source₁.length))))) ∧
    ∀ fault, parse source₂ = .error fault →
      parse (source₁ ++ source₂) = .error ⟨fault.cause, fault.offset + source₁.length⟩ := by
  obtain ⟨r, span, nodes, s, hr, hread, hrun, hend, hchildren⟩ := exists_of_parse h
  obtain ⟨hcomplete, hlast⟩ := closeBrace_of_parse h
  have htext : (source₁ ++ source₂).toList = source₁.toList ++ source₂.toList :=
    String.toList_append
  let locate := Grammar.Span.location (.ofSource (source₁.toList ++ source₂.toList))
  have hparse : parse (source₁ ++ source₂) =
      ((ofSource (source₁.toList ++ source₂.toList)).bind Grammar.read).map (Node.map locate) := by
    rw [parse_eq, htext]
    cases ofSource (source₁.toList ++ source₂.toList) <;> rfl
  have hnodes : nodes.map (Node.map locate) = tree₁.children := by
    have hroot := map_eq_of_read hr hread (f := locate)
      fun start stop => location_append_left source₂.toList
    rw [hchildren, ← Node.mapAll_eq, ← Node.mapAll_eq]
    exact (Node.root.inj hroot).2
  rw [hparse, htext, parse_eq]
  rcases ofScan_move source₁.toList.length (scan source₂.toList) with
    ⟨fault₂, hsource₂, hmoved⟩ | ⟨r₂, t', hsource₂, hmoved, hbehind⟩
  · -- not even the first symbol of the second source can be recognized
    rcases read_append source₂.toList locate hr hcomplete hlast hrun hend with
      ⟨fault, hmore, hboth⟩ | ⟨t, _, _, _, _, hmore, -⟩
    · rw [hboth, show ofSource source₂.toList = _ from hsource₂]
      refine ⟨nofun, fun fault' hfault => ?_⟩
      obtain rfl : fault₂ = fault' := Except.error.inj hfault
      exact congrArg Except.error (Except.error.inj (hmore.symm.trans hmoved))
    · rw [hmoved] at hmore
      cases hmore
  · rcases read_append source₂.toList locate hr hcomplete hlast hrun hend with
      ⟨fault, hmore, -⟩ | ⟨t, lastText, lastEnd, bound, nodes', hmore, hle, hbound, hnodes', hboth⟩
    · rw [hmoved] at hmore
      cases hmore
    · obtain rfl : t' = t := Except.ok.inj (hmoved.symm.trans hmore)
      have hbehind := hbehind lastText lastEnd hle
      have hfits : r₂.remaining ≤ bound := hbehind.remaining_eq.trans_le hbound
      rcases Grammar.restOf_behind locate hbehind hfits nodes' with
        ⟨span₂, nodes₂, span', children', hread₂, hrest, hmap⟩ | ⟨fault, hread₂, hrest⟩
      · rw [hboth, hrest, show ofSource source₂.toList = _ from hsource₂]
        show (∀ tree₂, (Grammar.read r₂).map _ = _ → _) ∧ ∀ fault, (Grammar.read r₂).map _ = _ → _
        rw [hread₂]
        refine ⟨?_, nofun⟩
        rintro _ ⟨⟩
        refine ⟨locate span', congrArg Except.ok ?_⟩
        have hroot := map_eq_of_read hsource₂ hread₂ (f := fun span => locate (span.move _))
          (g := Location.moveIn _ _ ∘ _) fun start stop => location_append_right source₁.toList
        have hmoved := (Node.root.inj hroot).2
        rw [← Node.mapAll_mapAll, Node.mapAll_eq, Node.mapAll_eq] at hmoved
        show Node.root _ (Node.mapAll locate (nodes' ++ children')) = _
        rw [Node.mapAll_eq, List.map_append, ← hnodes', hnodes, ← hmap, hmoved]
        rfl
      · rw [hboth, hrest, show ofSource source₂.toList = _ from hsource₂]
        show (∀ tree₂, (Grammar.read r₂).map _ = _ → _) ∧ ∀ fault, (Grammar.read r₂).map _ = _ → _
        rw [hread₂]
        refine ⟨nofun, ?_⟩
        rintro _ ⟨⟩
        rfl

/-- Behind one environment comes another one on the next line, or one that is not closed. -/
theorem parse_append_two_environments :
    let source₁ := "\\begin{algorithmic}\\STATE $a$\\end{algorithmic}\n"
    let source₂ := "\\begin{algorithm}\\caption{b}\n\\end{algorithm}"
    let unclosed := "\n\\begin{algorithmic}\\STATE a"
    (∃ tree₁ tree₂ loc, parse source₁ = .ok tree₁ ∧ parse source₂ = .ok tree₂ ∧
      parse (source₁ ++ source₂) = .ok (.root loc (tree₁.children ++ tree₂.children.map
        (Node.map (Location.moveIn (source₁ ++ source₂).toList source₁.length))))) ∧
    parse unclosed = .error ⟨.wrongKind .word .endOfSource, 28⟩ ∧
    parse (source₁ ++ unclosed) = .error ⟨.wrongKind .word .endOfSource, 28 + 47⟩ := by
  intro source₁ source₂ unclosed
  obtain ⟨tree₁, htree₁⟩ : ∃ tree, parse source₁ = .ok tree :=
    exists_parse_iff.2 (by decide +kernel)
  obtain ⟨tree₂, htree₂⟩ : ∃ tree, parse source₂ = .ok tree :=
    exists_parse_iff.2 (by decide +kernel)
  have hunclosed : parse unclosed = .error ⟨.wrongKind .word .endOfSource, 28⟩ :=
    parse_eq_error_iff.2 (by decide +kernel)
  have hlength : source₁.length = 47 := by decide +kernel
  obtain ⟨loc, hloc⟩ := (parse_append htree₁ source₂).1 tree₂ htree₂
  refine ⟨⟨tree₁, tree₂, loc, htree₁, htree₂, hloc⟩, hunclosed, ?_⟩
  rw [(parse_append htree₁ unclosed).2 _ hunclosed, hlength]

end AlgoBox
