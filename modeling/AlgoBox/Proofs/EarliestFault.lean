import AlgoBox.Proofs.Parsing

/-!
# Where faults are reported

A fault is reported at the earliest place at which the source is wrong
(`parse_error_earliest`): what stands before it begins a sentence, and with what
stands there it does not any more. The names of environments are an exception,
since a name is checked only behind the closing brace: the fault is then
reported at the `\begin`, and a fault that is met before the brace says nothing
about a name that is not allowed.
-/

namespace AlgoBox

open AlgoBox.Symbol Grammar Reader

/-- Some sentence starts with the tokens. -/
def Viable (w : List Token) : Prop := ∃ more, Sentence (w ++ more)

/-- The tokens of the symbols that start before an offset. -/
def tokensBefore (source : String) (offset : Nat) : List Token :=
  ((scan source.toList).stream.filter (·.start < offset)).map token

/-- Symbols in a row have these tokens, and the first of them starts at the
offset. -/
def StandsAt (source : String) (offset : Nat) (w : List Token) : Prop :=
  ∃ before here after, (scan source.toList).stream = before ++ here ++ after ∧
    here.map token = w ∧ here.head?.map (·.start) = some offset

variable {source : String} {ending : Ending} {r r' : Reader} {ss ws rest : List Symbol} {s : Symbol}
  {w : List Token} {f : Fault}

namespace Fault.Cause

variable {cause : Fault.Cause} {name name' : String}

theorem IsUnexpected.category_eq (h : cause.IsUnexpected) : cause.category = .syntactic := by
  cases cause with
  | wrongKind | wrongText => rfl
  | _ => exact h.elim

theorem IsUnexpected.not_misnames (h : cause.IsUnexpected) : ¬cause.Misnames name := by
  cases cause with
  | wrongKind | wrongText => exact id
  | _ => exact h.elim

theorem Misnames.category_eq (h : cause.Misnames name) : cause.category = .syntactic := by
  cases cause with
  | unknownEnvironment | misplacedEnvironment => rfl
  | _ => exact h.elim

theorem Misnames.unique (h : cause.Misnames name) (h' : cause.Misnames name') : name = name' := by
  cases cause with
  | unknownEnvironment | misplacedEnvironment => exact h.symm.trans h'
  | _ => exact h.elim

end Fault.Cause

theorem viable_of_begins (h : Begins DerivesDocument w) : Viable w := by
  obtain ⟨more, node, hdocument, htokens⟩ := h
  exact ⟨more ++ [.endOfSource], node.erase, hdocument, by rw [htokens, List.append_assoc]⟩

/-- A sentence opens no environment whose name is not allowed. -/
theorem not_viable_of_misnamed (h : ∀ more, Misnamed [] (w ++ more)) : ¬Viable w := by
  intro h
  obtain ⟨more, hsentence⟩ := h
  exact hsentence.wellNamed (h more)

/-- No sentence goes on with a symbol that was not expected: the document would
have been read past it. -/
theorem not_viable_of_unexpected {cause : Fault.Cause} (hr : Ahead ending r (ws ++ s :: rest))
    (h : document r.remaining r = .error ⟨cause, s.start⟩ r') (hcause : cause.IsUnexpected)
    (hr' : Ahead ending r' (s :: rest)) : ¬Viable (ws.map token ++ [s.token]) := by
  intro h
  obtain ⟨more, tree, htree, htokens⟩ := h
  obtain ⟨grouped, hgrouped, hsame⟩ := htree.regroup
  obtain ⟨w, hw, hfollows⟩ := document_follows hgrouped
  -- the symbols agree with the sentence up to and with `s`; `rest` need not
  have hagrees : Agrees rest.length (ws ++ s :: rest) (w ++ [.endOfSource]) := by
    have h := agrees_append (ws ++ [s]) rest more
    rwa [List.map_append, List.map_singleton, ← htokens, ← hsame, hw, List.append_assoc,
      List.singleton_append] at h
  have hkeeps := hfollows.keeps hr (Nat.le_refl _) hagrees
  rw [h] at hkeeps
  cases hkeeps with
  | leaves hreaches =>
      cases hreaches with
      | error hr'' hle =>
          -- the fault would have to leave at most `rest`, but `s` is still ahead
          obtain rfl := hr'.unique hr''
          exact absurd hle (Nat.not_succ_le_self _)
      | unrecognized => exact hcause

theorem tokensBefore_eq (hstream : (scan source.toList).stream = ws ++ s :: rest) :
    tokensBefore source s.start = ws.map token := by
  have hsorted := sorted_stream source.toList
  rw [hstream, List.map_append, List.map_cons] at hsorted
  obtain ⟨-, hlater, hearlier⟩ := List.pairwise_append.1 hsorted
  have hws : ws.filter (·.start < s.start) = ws := by
    refine List.filter_eq_self.2 fun x hx => decide_eq_true ?_
    exact hearlier _ (List.mem_map_of_mem hx) _ List.mem_cons_self
  have hrest : (s :: rest).filter (·.start < s.start) = [] := by
    refine List.filter_eq_nil_iff.2 fun x hx => ?_
    rw [decide_eq_true_eq, Nat.not_lt]
    rcases List.mem_cons.1 hx with rfl | hx
    · exact Nat.le_refl _
    · exact Nat.le_of_lt ((List.pairwise_cons.1 hlater).1 _ (List.mem_map_of_mem hx))
  rw [tokensBefore, hstream, List.filter_append, hws, hrest, List.append_nil]

theorem tokensBefore_eq_all {offset : Nat}
    (h : (scan source.toList).ending = .unrecognized offset) :
    tokensBefore source offset = (scan source.toList).stream.map token := by
  have hall : (scan source.toList).stream.filter (·.start < offset) = (scan source.toList).stream :=
    List.filter_eq_self.2 fun x hx => decide_eq_true (start_lt_of_unrecognized h x hx)
  rw [tokensBefore, hall]

theorem parse_error_inv (h : parse source = .error f) :
    ofSource source.toList = .error f ∨
      ∃ r r', ofSource source.toList = .ok r ∧ document r.remaining r = .error f r' := by
  unfold parse at h
  dsimp only at h
  cases hsource : ofSource source.toList with
  | error fault =>
      rw [hsource] at h
      cases h
      exact .inl rfl
  | ok r =>
      rw [hsource] at h
      change (Grammar.read r >>= _) = _ at h
      unfold Grammar.read at h
      cases hend : document r.remaining r with
      | ok node r' =>
          rw [hend] at h
          cases h
      | error fault r' =>
          rw [hend] at h
          cases h
          exact .inr ⟨r, r', rfl, hend⟩

/-- What stands before a fault begins a sentence, or it names an environment that
is not allowed. -/
def Blameless (w : List Token) : Prop := Viable w ∨ ¬WellNamed w

theorem blameless_of_begins (h : Begins DerivesDocument w ∨ Misnamed [] w) : Blameless w :=
  h.imp viable_of_begins fun hbad hgood => hgood hbad

/-- The three ways in which a source cannot be read. -/
theorem parse_error_cases (h : parse source = .error f) :
    (f.cause = .unrecognizable ∧ (scan source.toList).ending = .unrecognized f.offset ∧
      Blameless (tokensBefore source f.offset)) ∨
    (f.cause.IsUnexpected ∧ Blameless (tokensBefore source f.offset) ∧
      ∃ s ∈ (scan source.toList).stream, s.start = f.offset ∧
        ¬Viable (tokensBefore source f.offset ++ [s.token])) ∨
    (∃ name, f.cause.Misnames name ∧ StandsAt source f.offset (Token.opening name) ∧
      Viable (tokensBefore source f.offset) ∧
      ¬Viable (tokensBefore source f.offset ++ Token.opening name)) := by
  rcases parse_error_inv h with hsource | ⟨r, r', hr, hend⟩
  · obtain ⟨hcause, hending, hstream⟩ := ofSource_error hsource
    -- nothing stands before the fault, and some sentence goes on from there
    refine .inl ⟨hcause, hending, .inl ?_⟩
    obtain ⟨w, node, hnode⟩ := (document_sound 0).live
    rw [tokensBefore_eq_all hending, hstream]
    exact viable_of_begins ⟨w, node, hnode⟩
  · have hahead := ahead_scan hr
    have hends := (document_sound r.remaining).ends hahead
    rw [hend] at hends
    cases hends with
    | unrecognized hending hw =>
        -- all symbols were consumed, and the text behind them is none
        refine .inl ⟨rfl, hending, ?_⟩
        rw [tokensBefore_eq_all hending]
        exact blameless_of_begins hw
    | unexpected ws hcause hss hr' hw =>
        -- soundness gives the first half, completeness the second one
        rename_i rest s cause
        refine .inr (.inl ⟨hcause, ?_, s, ?_, rfl, ?_⟩)
        · rw [tokensBefore_eq hss]
          exact blameless_of_begins hw
        · rw [hss]
          exact List.mem_append_right _ List.mem_cons_self
        · rw [tokensBefore_eq hss]
          rw [hss] at hahead
          exact not_viable_of_unexpected hahead hend hcause hr'
    | misnamed ws hcause hss hopening hr' hw hbad =>
        rename_i four rest s name cause
        have hbefore : tokensBefore source s.start = ws.map token := tokensBefore_eq hss
        refine .inr (.inr ⟨name, hcause, ⟨ws, s :: four, rest, ?_, hopening, rfl⟩, ?_, ?_⟩)
        · rw [hss, List.append_assoc]
        · rw [hbefore]
          exact viable_of_begins hw
        · rw [hbefore]
          refine not_viable_of_misnamed fun more => ?_
          -- the name is enough for `hbad`; the brace behind it belongs to the opening
          have h := hbad (.closeBrace :: more)
          rwa [List.append_assoc]

/-- Faults are reported at the earliest offending place. If the fault is not the
name of an environment, and every environment that is opened before it has a name
that is allowed where it stands, then what stands before the fault begins a
sentence, and either the text at the fault is no symbol, or no sentence goes on
with the symbol there. If the fault is the name of an environment, then it is
reported at the `\begin`, what stands before it begins a sentence, and no sentence
goes on with the opening of an environment of that name. -/
theorem parse_error_earliest {source : String} {f : Fault} (h : parse source = .error f) :
    ((∀ name, ¬f.cause.Misnames name) → WellNamed (tokensBefore source f.offset) →
      Viable (tokensBefore source f.offset) ∧
      ((f.cause.category = .lexical ∧ Unrecognizable (source.toList.drop f.offset)) ∨
        (f.cause.category = .syntactic ∧ ∃ s ∈ (scan source.toList).stream, s.start = f.offset ∧
          ¬Viable (tokensBefore source f.offset ++ [s.token])))) ∧
    (∀ name, f.cause.Misnames name → f.cause.category = .syntactic ∧
      StandsAt source f.offset (Token.opening name) ∧ Viable (tokensBefore source f.offset) ∧
      ¬Viable (tokensBefore source f.offset ++ Token.opening name)) := by
  have viable : Blameless (tokensBefore source f.offset) →
      WellNamed (tokensBefore source f.offset) → Viable (tokensBefore source f.offset) := by
    rintro (hviable | hbad) hgood
    · exact hviable
    · exact absurd hgood hbad
  rcases parse_error_cases h with ⟨hcause, hending, hbefore⟩ |
    ⟨hcause, hbefore, hwrong⟩ | ⟨name, hname, hstands, hbefore, hwrong⟩
  · have hlexical : f.cause.category = .lexical := by
      rw [hcause]
      rfl
    refine ⟨fun _ hgood => ⟨viable hbefore hgood, .inl ⟨hlexical, ?_⟩⟩, fun name hname => ?_⟩
    · obtain ⟨k, hk, htext⟩ := unrecognizable_of_scanFrom hending
      rwa [hk, Nat.zero_add]
    · rw [hcause] at hname
      exact hname.elim
  · have hsyntactic := hcause.category_eq
    refine ⟨fun _ hgood => ⟨viable hbefore hgood, .inr ⟨hsyntactic, hwrong⟩⟩, fun name hname => ?_⟩
    exact absurd hname hcause.not_misnames
  · refine ⟨fun hnone => absurd hname (hnone name), fun other hother => ?_⟩
    obtain rfl := hname.unique hother
    exact ⟨hname.category_eq, hstands, hbefore, hwrong⟩

/-- An environment that is closed by the name of another one: the fault is at that
name. -/
theorem earliest_wrong_closing :
    parse "\\begin{algorithm}\\end{algorithmic}" =
      .error ⟨.wrongText (.only "algorithm") (some "algorithmic"), 22⟩ ∧
    Viable (tokensBefore "\\begin{algorithm}\\end{algorithmic}" 22) ∧
    ∃ s ∈ (scan "\\begin{algorithm}\\end{algorithmic}".toList).stream, s.start = 22 ∧
      ¬Viable (tokensBefore "\\begin{algorithm}\\end{algorithmic}" 22 ++ [s.token]) := by
  have hparse : parse "\\begin{algorithm}\\end{algorithmic}" =
      .error ⟨.wrongText (.only "algorithm") (some "algorithmic"), 22⟩ :=
    parse_eq_error_iff.2 (by decide +kernel)
  have hnamed : WellNamed (tokensBefore "\\begin{algorithm}\\end{algorithmic}" 22) := by
    unfold WellNamed tokensBefore
    decide +kernel
  obtain ⟨hviable, hlexical | hsyntactic⟩ := (parse_error_earliest hparse).1 (fun _ => id) hnamed
  · exact absurd hlexical.1 (by decide)
  · exact ⟨hparse, hviable, hsyntactic.2⟩

end AlgoBox
