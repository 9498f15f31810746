import AlgoBox.Proofs.Splitting
import AlgoBox.Proofs.Sticking

/-!
# Where tokenizing fails

A source cannot be tokenized if and only if it breaks somewhere: up to there it can be tokenized,
and there it is foul, which is to say that it goes on with a bare reserved character, a backslash
that begins nothing or a formula that is not closed. It breaks at one place only, the fault is
there, and the symbols in front of it are those of the text up to there (`tokenize_fails_iff`).

`Foul` says with which characters no symbol begins and does not mention recognizers; that they
match nothing just there is `unrecognizable_iff`.
-/

namespace AlgoBox

open AlgoBox.Symbol Text Token Reader Recognizer

/-! ## Text that is no symbol -/

/-- The text begins with what no symbol begins with: a reserved character that is none by
itself, a backslash that neither a letter nor a reserved character follows, or a dollar
behind which every dollar has a backslash right before it. -/
inductive Foul : List Char → Prop
  | bare {c : Char} {rest : List Char} : c ∈ ['&', '#', '%', '_'] → Foul (c :: rest)
  | loneBackslash : Foul ['\\']
  | backslash {c : Char} {rest : List Char} : isLetter c = false →
      c ∉ ['\\', '{', '}', '$', '&', '#', '%', '_'] → Foul ('\\' :: c :: rest)
  | dollar {rest : List Char} : (∀ u v, rest = u ++ '$' :: v → u.getLast? = some '\\') →
      Foul ('$' :: rest)

theorem Foul.head_isReserved {s : List Char} (h : Foul s) :
    ∀ c ∈ s.head?, isReserved c = true := by
  cases h with
  | bare hc =>
      simp only [List.mem_cons, List.not_mem_nil, or_false] at hc
      rintro _ ⟨⟩
      rcases hc with rfl | rfl | rfl | rfl <;> rfl
  | _ =>
      rintro _ ⟨⟩
      decide

theorem endsEscaped_false_iff {s : List Char} :
    EndsEscaped false s ↔ s.getLast? = some '\\' := by
  unfold EndsEscaped
  cases s.getLast? <;> simp

/-- A formula is not closed if every dollar has a backslash right before it. -/
theorem throughDollar?_eq_none_iff {escaped : Bool} {s : List Char} :
    throughDollar? escaped s = none ↔ ∀ u v, s = u ++ '$' :: v → EndsEscaped escaped u := by
  induction s generalizing escaped with
  | nil => simp [throughDollar?]
  | cons c s ih =>
      rw [throughDollar?]
      by_cases hc : c = '$' ∧ escaped = false
      · obtain ⟨rfl, rfl⟩ := hc
        refine iff_of_false (by simp) fun h => ?_
        simpa [EndsEscaped] using h [] s rfl
      · rw [if_neg hc, Option.map_eq_none_iff, ih]
        constructor
        · intro h u v huv
          cases u with
          | nil =>
              -- the dollar itself is the first character
              have hdollar : c = '$' := (List.cons.inj huv).1
              simpa [EndsEscaped, hdollar] using hc
          | cons d u =>
              obtain ⟨rfl, htail⟩ := List.cons.inj huv
              exact endsEscaped_cons.2 (h u v htail)
        · intro h u v huv
          exact endsEscaped_cons.1 (h (c :: u) v (by rw [huv, List.cons_append]))

/-- No recognizer matches a text, one by one. -/
theorem unrecognizable_cons_iff {c : Char} {s : List Char} :
    Unrecognizable (c :: s) ↔
      specialLength? (c :: s) = none ∧ wordLength? (c :: s) = none ∧
      charLength? '{' (c :: s) = none ∧ charLength? '}' (c :: s) = none ∧
      ordinaryLength? (c :: s) = none ∧ mathLength? (c :: s) = none := by
  simp [Unrecognizable, Recognizer.table]

theorem Foul.unrecognizable {s : List Char} (h : Foul s) : Unrecognizable s := by
  cases h with
  | bare hc =>
      simp only [List.mem_cons, List.not_mem_nil, or_false] at hc
      rcases hc with rfl | rfl | rfl | rfl <;>
        exact unrecognizable_cons_iff.2 ⟨rfl, rfl, rfl, rfl, rfl, rfl⟩
  | loneBackslash => exact unrecognizable_cons_iff.2 ⟨rfl, rfl, rfl, rfl, rfl, rfl⟩
  | backslash hletter hreserved =>
      refine unrecognizable_cons_iff.2 ⟨?_, ?_, rfl, rfl, rfl, rfl⟩
      · simp [specialLength?, isReserved, hreserved]
      · simp [wordLength?, hletter]
  | dollar hrest =>
      have hopen := throughDollar?_eq_none_iff.2 fun u v huv =>
        endsEscaped_false_iff.2 (hrest u v huv)
      refine unrecognizable_cons_iff.2 ⟨rfl, rfl, rfl, rfl, rfl, ?_⟩
      simp [mathLength?, hopen]

theorem foul_of_unrecognizable {s : List Char} (h : Unrecognizable s) : Foul s := by
  obtain ⟨c, rest, rfl⟩ := List.exists_cons_of_ne_nil h.1
  obtain ⟨hspecial, hword, hopen, hclose, hordinary, hmath⟩ := unrecognizable_cons_iff.1 h
  have hreserved : isReserved c = true := by
    simpa [ordinaryLength?] using hordinary
  simp only [isReserved, List.contains_iff_mem, List.mem_cons, List.not_mem_nil,
    or_false] at hreserved
  rcases hreserved with rfl | rfl | rfl | rfl | hbare
  · cases rest with
    | nil => exact .loneBackslash
    | cons c rest =>
        refine .backslash ?_ ?_
        · simpa [wordLength?] using hword
        · simpa [specialLength?, isReserved] using hspecial
  · cases hopen
  · cases hclose
  · refine .dollar fun u v huv => endsEscaped_false_iff.1 ?_
    have hnone : throughDollar? false rest = none := by simpa [mathLength?] using hmath
    exact throughDollar?_eq_none_iff.1 hnone u v huv
  · exact .bare (by simpa using hbare)

/-- No recognizer matches just where the text is foul. -/
theorem unrecognizable_iff {s : List Char} : Unrecognizable s ↔ Foul s :=
  ⟨foul_of_unrecognizable, Foul.unrecognizable⟩

/-! ## Tokenizing up to a fault -/

/-- What a run over all symbols of a source comes to: the symbols, the current one included if
the run stops at it, and the fault that stopped it. -/
def tokenization (source : List Char) : Run :=
  match ofSource source with
  | .error fault => ⟨[], some fault⟩
  | .ok r =>
    let (result, last) := r.runAll
    match result.stopped with
    | none => result
    | some fault => ⟨result.symbols ++ [last.current], some fault⟩

theorem tokenization_of_unrecognized {source : List Char} {offset : Nat}
    (h : (scan source).ending = .unrecognized offset) :
    tokenization source = ⟨(scan source).symbols, some ⟨.unrecognizable, offset⟩⟩ := by
  unfold tokenization
  cases hr : ofSource source with
  | error fault =>
      obtain ⟨hcause, hending, hstream⟩ := ofSource_error hr
      obtain ⟨hsymbols, -⟩ := List.append_eq_nil_iff.1 hstream
      rw [h] at hending
      cases hending
      rw [hsymbols, ← hcause]
  | ok r =>
      have hahead := ahead_scan hr
      have hrun := run_of_ahead hahead (Nat.lt_succ_self _)
      rw [h] at hrun
      have hfault : r.runAll.1.stopped = some ⟨.unrecognizable, offset⟩ :=
        congrArg Run.stopped hrun
      have huse : Use (String.ofList source) r (.run none) (.run r.runAll.1) r.runAll.2 := .run
      obtain ⟨_, -, -, hstuck, hstream⟩ := hahead.use_fault huse hfault rfl
      rw [Scan.stream, h, Ending.symbols, List.append_nil] at hstream
      show (match r.runAll.1.stopped with
        | none => r.runAll.1
        | some fault => ⟨r.runAll.1.symbols ++ [r.runAll.2.current], some fault⟩) = _
      rw [hfault, hstuck, hstream]
      rfl

/-! ## Breaks -/

/-- The source can be tokenized up to a place where it is foul. -/
structure BreaksAt (source front rest : List Char) : Prop where
  text_eq : source = front ++ rest
  front_complete : ∃ symbols, tokenize? front = some symbols
  foul : Foul rest

section BreaksAt

variable {source front rest : List Char}

/-- The cut of a source stops where it breaks. -/
theorem BreaksAt.scan_eq (h : BreaksAt source front rest) :
    scan source = ⟨(scan front).symbols, .unrecognized front.length⟩ := by
  obtain ⟨rfl, ⟨symbols, hsymbols⟩, hfoul⟩ := h
  obtain ⟨hcomplete, -⟩ := tokenize?_eq_some_iff.1 hsymbols
  have hblank : ∀ c ∈ rest.head?, isBlank c = false :=
    fun c hc => not_isBlank_of_isReserved (hfoul.head_isReserved c hc)
  rw [scan_append hcomplete fun x _ => stops_of_reserved x.token hfoul.head_isReserved]
  have hrest : scan rest = ⟨[], .unrecognized 0⟩ :=
    scanFrom_unrecognizable hblank (unrecognizable_iff.2 hfoul) 0
  rw [hrest, Scan.behind, Scan.move, List.map_nil, List.append_nil, Ending.move, Nat.zero_add]

/-- A source breaks where its cut stops. -/
theorem exists_breaksAt {offset : Nat} (h : (scan source).ending = .unrecognized offset) :
    ∃ front rest, BreaksAt source front rest := by
  obtain ⟨k, hk, hunrecognizable⟩ := unrecognizable_of_scanFrom h
  rw [Nat.zero_add] at hk
  subst hk
  have hplace : offset ∈ (scan source).places := by
    have hmem := ending_mem_places (scan source)
    rwa [h] at hmem
  obtain ⟨hcomplete, -⟩ := split_scan (length_take_mem_places hplace) rfl
  exact ⟨source.take offset, source.drop offset, {
    text_eq := (List.take_append_drop ..).symm
    front_complete := ⟨_, tokenize?_eq_some_iff.2 ⟨hcomplete, rfl⟩⟩
    foul := unrecognizable_iff.1 hunrecognizable }⟩

theorem BreaksAt.unique {front' rest' : List Char} (h : BreaksAt source front rest)
    (h' : BreaksAt source front' rest') : front' = front ∧ rest' = rest := by
  have hscan := h.scan_eq
  rw [h'.scan_eq] at hscan
  injection hscan with _ hending
  injection hending with hlength
  exact List.append_inj (h'.text_eq.symm.trans h.text_eq) hlength

end BreaksAt

/-- A source cannot be tokenized if and only if it breaks somewhere. It breaks at one place, the
fault is there, and the symbols in front of the fault are those of the text up to there. -/
theorem tokenize_fails_iff (source : List Char) :
    (tokenize? source = none ↔ ∃ front rest, BreaksAt source front rest) ∧
      ∀ front rest, BreaksAt source front rest →
        (∀ front' rest', BreaksAt source front' rest' → front' = front ∧ rest' = rest) ∧
        ∃ symbols, tokenize? front = some symbols ∧
          tokenization source = ⟨withoutEnd symbols, some ⟨.unrecognizable, front.length⟩⟩ := by
  refine ⟨⟨fun h => ?_, ?_⟩, fun front rest h => ⟨fun _ _ h' => h.unique h', ?_⟩⟩
  · cases hending : (scan source).ending with
    | complete length =>
        rw [tokenize?_eq_some_iff.2 ⟨⟨length, hending⟩, rfl⟩] at h
        cases h
    | unrecognized offset => exact exists_breaksAt hending
  · rintro ⟨front, rest, h⟩
    rw [Option.eq_none_iff_forall_ne_some]
    intro symbols hsymbols
    obtain ⟨⟨length, hlength⟩, -⟩ := tokenize?_eq_some_iff.1 hsymbols
    rw [h.scan_eq] at hlength
    cases hlength
  · obtain ⟨symbols, hsymbols⟩ := h.front_complete
    obtain ⟨-, rfl⟩ := tokenize?_eq_some_iff.1 hsymbols
    refine ⟨_, hsymbols, ?_⟩
    have hscan := h.scan_eq
    rw [tokenization_of_unrecognized (congrArg Scan.ending hscan), hscan, withoutEnd_stream]

/-- A formula that is not closed, behind one that is. -/
theorem tokenize_fails_at_dollar :
    BreaksAt "a $x$ $y\\$".toList "a $x$ ".toList "$y\\$".toList ∧
      ∃ symbols, tokenize? "a $x$ ".toList = some symbols ∧
        tokenization "a $x$ $y\\$".toList = ⟨withoutEnd symbols, some ⟨.unrecognizable, 6⟩⟩ := by
  have hbreaks : BreaksAt "a $x$ $y\\$".toList "a $x$ ".toList "$y\\$".toList := {
    text_eq := by decide
    front_complete := ⟨[⟨.ordinary, some "a ", 0, 2⟩, ⟨.math, some "x", 2, 5⟩, .atEnd 6], by
      decide +kernel⟩
    foul := unrecognizable_iff.1
      (unrecognizable_cons_iff.2 ⟨rfl, rfl, rfl, rfl, rfl, rfl⟩) }
  exact ⟨hbreaks, ((tokenize_fails_iff _).2 _ _ hbreaks).2⟩

end AlgoBox
