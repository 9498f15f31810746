import AlgoBox.Proofs.Parsing

/-!
# Tokenization is lossless

A source that is cut to its end can be put together again from its symbols and
the blanks between them (`tokenize_lossless`).

`Tiled` is the cut as a relation: blanks, a token, and so on up to the end. The
scanner tiles every source that it can cut (`tiled_of_scanFrom`), and each part of
the law is one induction over the tiles. A run over the symbols of a reader gives
exactly the symbols of the scan (`run_of_ahead`).
-/

namespace AlgoBox

open AlgoBox.Symbol Text Reader

/-! ## Runs over all symbols -/

/-- What a run gives that consumes all it can of some symbols. Where text follows
that is no symbol, it stops there, and the last symbol is not given. -/
def Reader.Run.through (ss : List Symbol) : Ending → Run
  | .complete _ => ⟨ss, none⟩
  | .unrecognized offset => ⟨ss.dropLast, some ⟨.unrecognizable, offset⟩⟩

/-- A run that is long enough goes through all the symbols ahead. -/
theorem run_of_ahead {ending : Ending} {r : Reader} {ss : List Symbol} {count : Nat}
    (hr : Ahead ending r ss) (hcount : r.remaining < count) :
    (Reader.run count r).1 = .through ss ending := by
  induction count generalizing r ss with
  | zero => exact absurd hcount (Nat.not_lt_zero _)
  | succ count ih =>
      obtain ⟨s, rest, rfl⟩ := hr.exists_cons
      have hcurrent := hr.current_eq
      unfold Reader.run
      rw [hcurrent]
      rcases hr.consume with ⟨hs, r', heq, hr'⟩ | ⟨hs, hrest, -⟩ | ⟨hs, hrest, offset, r', he, heq⟩
      · -- one symbol less remains behind it
        have hsucc := hr.remaining_succ hr' hs
        have htail := ih hr' (by omega)
        rw [if_neg (mt kind_eq_endOfSource_iff.1 hs), heq]
        obtain ⟨next, more, rfl⟩ := hr'.exists_cons
        show Run.mk _ _ = _
        rw [htail]
        cases ending with
        | complete length => rfl
        | unrecognized offset => rfl
      · subst hrest
        obtain ⟨length, rfl⟩ := hr.complete_of_end hs
        rw [if_pos (kind_eq_endOfSource_iff.2 hs)]
        rfl
      · subst hrest he
        rw [if_neg (mt kind_eq_endOfSource_iff.1 hs), heq]
        rfl

/-- The symbols of a source, the end of the source included, if a run over them
is not stopped. -/
def tokenize? (source : List Char) : Option (List Symbol) :=
  match ofSource source with
  | .error _ => none
  | .ok r => if r.runAll.1.stopped = none then some r.runAll.1.symbols else none

theorem eq_stream_of_tokenize? {source : List Char} {symbols : List Symbol}
    (h : tokenize? source = some symbols) :
    symbols = (scan source).stream ∧ ∃ length, (scan source).ending = .complete length := by
  unfold tokenize? at h
  cases hr : ofSource source with
  | error fault => simp [hr] at h
  | ok r =>
      have hrun := run_of_ahead (ahead_scan hr) (Nat.lt_succ_self _)
      simp only [hr, runAll, hrun] at h
      cases hending : (scan source).ending with
      | complete length =>
          simp only [hending, Run.through, if_true, Option.some.injEq] at h
          exact ⟨h.symm, length, rfl⟩
      | unrecognized offset => simp [hending, Run.through] at h

/-- A source is tokenized if it is cut to its end. -/
theorem tokenize?_eq_some_iff {source : List Char} {symbols : List Symbol} :
    tokenize? source = some symbols ↔
      (scan source).IsComplete ∧ symbols = (scan source).stream := by
  constructor
  · intro h
    obtain ⟨hsymbols, hcomplete⟩ := eq_stream_of_tokenize? h
    exact ⟨hcomplete, hsymbols⟩
  · rintro ⟨⟨length, hlength⟩, rfl⟩
    obtain ⟨r, hr⟩ := exists_ofScan (scan source).symbols length
    rw [← hlength] at hr
    have hrun := run_of_ahead (ahead_scan hr) (Nat.lt_succ_self _)
    change ofSource source = .ok r at hr
    simp [tokenize?, hr, runAll, hrun, hlength, Run.through]

namespace Symbol

/-- All of some symbols but the end of the source. -/
def withoutEnd (ss : List Symbol) : List Symbol := ss.filter (·.kind ≠ .endOfSource)

theorem withoutEnd_append (ss ts : List Symbol) : withoutEnd (ss ++ ts) = withoutEnd ss ++ withoutEnd ts :=
  List.filter_append ..

theorem withoutEnd_of_proper {ss : List Symbol} (h : ∀ x ∈ ss, x.Proper) : withoutEnd ss = ss := by
  unfold withoutEnd
  rw [List.filter_eq_self]
  intro x hx
  simpa using (h x hx).kind_ne

theorem withoutEnd_ending (ending : Ending) : withoutEnd ending.symbols = [] := by
  cases ending <;> rfl

theorem withoutEnd_stream (source : List Char) :
    withoutEnd (scan source).stream = (scan source).symbols := by
  have hproper := fun x hx => (valid_of_mem_scanFrom 0 source x hx).1
  rw [Scan.stream, withoutEnd_append, withoutEnd_ending, List.append_nil]
  exact withoutEnd_of_proper hproper

end Symbol

/-! ## Tiles -/

/-- All characters are blanks. -/
def Blank (s : List Char) : Prop := ∀ c ∈ s, isBlank c = true

/-- A text that begins at `offset` consists of blanks and tokens, and the symbols
are those of the tokens with the end of the source behind them. -/
inductive Tiled : Nat → List Char → List Symbol → Prop
  | atEnd {offset : Nat} {gap : List Char} : Blank gap →
      Tiled offset gap [.atEnd (offset + gap.length)]
  | token {offset : Nat} {gap rest : List Char} {t : Token} {symbols : List Symbol} :
      Blank gap → t.Valid → t ≠ .endOfSource → t.Stops rest →
      Tiled (offset + gap.length + t.chars.length) rest symbols →
      Tiled offset (gap ++ (t.chars ++ rest)) (t.symbolAt (offset + gap.length) :: symbols)

theorem Tiled.blank {offset : Nat} {c : Char} {s : List Char} {symbols : List Symbol}
    (hc : isBlank c = true) (h : Tiled (offset + 1) s symbols) :
    Tiled offset (c :: s) symbols := by
  have hsum : ∀ n, offset + 1 + n = offset + (n + 1) := by
    intro n
    omega
  cases h with
  | atEnd hgap =>
      rw [hsum, ← List.length_cons (a := c)]
      exact .atEnd (List.forall_mem_cons.2 ⟨hc, hgap⟩)
  | token hgap hvalid ht hstops hrest =>
      rw [hsum, ← List.length_cons (a := c)] at hrest ⊢
      exact .token (List.forall_mem_cons.2 ⟨hc, hgap⟩) hvalid ht hstops hrest

/-- What the scanner cuts to the end is tiled by its symbols. -/
theorem tiled_of_scanFrom {offset length : Nat} {s : List Char}
    (h : (scanFrom Recognizer.table offset s).ending = .complete length) :
    Tiled offset s (scanFrom Recognizer.table offset s).stream := by
  induction offset, s using scan_induction with
  | atEnd offset =>
      rw [scanFrom_nil]
      exact @Tiled.atEnd offset [] nofun
  | blank offset c s hc ih =>
      rw [scanFrom_blank hc] at h ⊢
      exact (ih h).blank hc
  | token offset t rest hvalid ht hstops ih =>
      rw [scanFrom_token hvalid ht hstops] at h ⊢
      exact @Tiled.token offset [] rest t _ nofun hvalid ht hstops (ih h)
  | unrecognizable offset s hblank hs =>
      rw [scanFrom_unrecognizable hblank hs] at h
      cases h

/-! ## What the tiles say about the symbols -/

/-- The stretch of a source between two offsets. -/
def Source.between (source : List Char) (start stop : Nat) : List Char :=
  (source.drop start).take (stop - start)

/-- How a symbol is written: a word behind a backslash, a formula between dollars,
and every other symbol as its text. The end of the source has none. -/
def Symbol.spelling (s : Symbol) : List Char :=
  match s.kind with
  | .word => '\\' :: (s.text.getD "").toList
  | .math => '$' :: ((s.text.getD "").toList ++ ['$'])
  | _ => (s.text.getD "").toList

@[simp] theorem spelling_symbolAt (t : Token) (offset : Nat) :
    (t.symbolAt offset).spelling = t.chars := by
  cases t <;> simp [spelling, Token.symbolAt, Token.kind, Token.text, Token.chars]

@[simp] theorem spelling_atEnd (length : Nat) : (Symbol.atEnd length).spelling = [] := rfl

theorem kind_symbolAt_ne {t : Token} (ht : t ≠ .endOfSource) (offset : Nat) :
    (t.symbolAt offset).kind ≠ .endOfSource := by
  cases t with
  | endOfSource => exact absurd rfl ht
  | _ => exact nofun

theorem between_append (before text rest : List Char) :
    Source.between (before ++ (text ++ rest)) before.length (before.length + text.length) = text := by
  simp [Source.between]

namespace Tiled

variable {offset : Nat} {s before : List Char} {symbols : List Symbol}

theorem ends (h : Tiled offset s symbols) :
    ∃ inner, symbols = inner ++ [.atEnd (offset + s.length)] ∧
      ∀ x ∈ inner, x.kind ≠ .endOfSource ∧ x.start < x.stop := by
  induction h with
  | atEnd _ => exact ⟨[], rfl, nofun⟩
  | @token offset gap rest t symbols _ hvalid ht _ _ ih =>
      obtain ⟨inner, rfl, hinner⟩ := ih
      have hpos := List.length_pos_iff.2 (chars_ne_nil hvalid ht)
      refine ⟨t.symbolAt (offset + gap.length) :: inner, ?_, ?_⟩
      · simp [Nat.add_assoc]
      · refine List.forall_mem_cons.2 ⟨⟨kind_symbolAt_ne ht _, ?_⟩, hinner⟩
        show offset + gap.length < offset + gap.length + t.chars.length
        omega

theorem start_le (h : Tiled offset s symbols) : ∀ x ∈ symbols, offset ≤ x.start := by
  induction h with
  | atEnd _ => simp [Symbol.atEnd]
  | token _ _ _ _ _ ih =>
      refine List.forall_mem_cons.2 ⟨Nat.le_add_right _ _, ?_⟩
      intro x hx
      have := ih x hx
      omega

theorem ordered (h : Tiled offset s symbols) :
    symbols.Pairwise fun x y => x.stop ≤ y.start := by
  induction h with
  | atEnd _ => exact List.pairwise_singleton _ _
  | token _ _ _ _ hrest ih => exact List.pairwise_cons.2 ⟨hrest.start_le, ih⟩

theorem spelled (h : Tiled before.length s symbols) :
    ∀ x ∈ symbols, Source.between (before ++ s) x.start x.stop = x.spelling := by
  generalize hoffset : before.length = offset at h
  induction h generalizing before with
  | atEnd _ => simp [Source.between, Symbol.atEnd, spelling]
  | @token offset gap rest t symbols _ _ _ _ _ ih =>
      refine List.forall_mem_cons.2 ⟨?_, ?_⟩
      · rw [spelling_symbolAt, ← List.append_assoc, ← hoffset, ← List.length_append]
        exact between_append _ _ _
      · have hmore := @ih (before ++ (gap ++ t.chars)) (by simp [hoffset]; omega)
        simpa using hmore

/-- Between a place and the next symbol there are only blanks. -/
theorem gaps (h : Tiled before.length s symbols) :
    ((before.length, before.length) :: symbols.map fun x => (x.start, x.stop)).IsChain
      fun x y => x.2 ≤ y.1 ∧ Blank (Source.between (before ++ s) x.2 y.1) := by
  generalize hoffset : before.length = offset at h
  induction h generalizing before with
  | @atEnd offset gap hgap =>
      refine .cons_cons ⟨Nat.le_add_right _ _, ?_⟩ (.singleton _)
      have hbetween := between_append before gap []
      rw [hoffset, List.append_nil] at hbetween
      show Blank (Source.between _ offset (offset + gap.length))
      rw [hbetween]
      exact hgap
  | @token offset gap rest t symbols hgap _ _ _ _ ih =>
      refine .cons_cons ⟨Nat.le_add_right _ _, ?_⟩ ?_
      · rw [← hoffset]
        show Blank (Source.between _ before.length (before.length + gap.length))
        rw [between_append]
        exact hgap
      · have hmore := @ih (before ++ (gap ++ t.chars)) (by simp [hoffset]; omega)
        -- only the start of the first span differs, and no gap looks at it
        rw [List.append_assoc, List.append_assoc] at hmore
        cases hsymbols : symbols.map fun x => (x.start, x.stop) with
        | nil => exact .singleton _
        | cons span spans =>
            rw [hsymbols, List.isChain_cons_cons] at hmore
            exact .cons_cons hmore.1 hmore.2

theorem rebuilt (h : Tiled offset s symbols) :
    ∃ gaps : List (List Char), gaps.length = symbols.length ∧ (∀ gap ∈ gaps, Blank gap) ∧
      s = (List.zipWith (fun gap x => gap ++ spelling x) gaps symbols).flatten := by
  induction h with
  | @atEnd offset gap hgap => exact ⟨[gap], rfl, by simpa using hgap, by simp⟩
  | @token offset gap rest t symbols hgap _ _ _ _ ih =>
      obtain ⟨gaps, hlength, hgaps, hrest⟩ := ih
      refine ⟨gap :: gaps, by simp [hlength], List.forall_mem_cons.2 ⟨hgap, hgaps⟩, ?_⟩
      rw [List.zipWith_cons_cons, List.flatten_cons, ← hrest, spelling_symbolAt,
        List.append_assoc]

/-- Where ordinary characters would stop, the next symbol begins at once, and is
none of ordinary characters. -/
theorem head_of_reserved (h : Tiled offset s symbols)
    (hs : ∀ c ∈ s.head?, isReserved c = true) :
    ∀ x ∈ symbols.head?, x.kind ≠ .ordinary ∧ x.start = offset := by
  cases h with
  | atEnd hgap =>
      rintro _ ⟨⟩
      cases s with
      | nil => exact ⟨nofun, rfl⟩
      | cons c gap =>
          have hblank := hgap c List.mem_cons_self
          rw [not_isBlank_of_isReserved (hs c rfl)] at hblank
          cases hblank
  | @token offset gap rest t symbols hgap hvalid ht _ _ =>
      rintro _ ⟨⟩
      cases gap with
      | nil =>
          refine ⟨?_, rfl⟩
          intro hkind
          cases t with
          | ordinary content =>
              -- its first character would be a reserved one
              obtain ⟨c, cs, hchars⟩ := List.exists_cons_of_ne_nil hvalid.1
              have hreserved := hs c (by simp [Token.chars, hchars])
              rw [hvalid.2.2 c (by simp [hchars])] at hreserved
              cases hreserved
          | _ => cases hkind
      | cons c gap =>
          have hblank := hgap c List.mem_cons_self
          rw [not_isBlank_of_isReserved (hs c rfl)] at hblank
          cases hblank

theorem apart (h : Tiled offset s symbols) :
    symbols.IsChain fun x y => x.kind = .ordinary → y.kind ≠ .ordinary ∧ y.start = x.stop := by
  induction h with
  | atEnd _ => exact .singleton _
  | @token offset gap rest t symbols _ _ _ hstops hrest ih =>
      refine List.isChain_cons.2 ⟨?_, ih⟩
      intro y hy hkind
      cases t with
      | ordinary content => exact hrest.head_of_reserved hstops y hy
      | _ => cases hkind

theorem head_not_blank (h : Tiled offset s symbols) :
    ∀ x ∈ symbols, x.kind = .ordinary → ∀ c ∈ x.spelling.head?, isBlank c = false := by
  induction h with
  | atEnd _ => simp
  | token _ hvalid _ _ _ ih =>
      refine List.forall_mem_cons.2 ⟨?_, ih⟩
      intro _
      rw [spelling_symbolAt]
      exact head?_chars hvalid

end Tiled

/-! ## The law -/

/-- What makes a cut of a source lossless. The end of the source comes last and only there,
and no other symbol is empty. Each symbol ends before every later one starts, what stands in
the source from its start to its end is its spelling, and around the symbols stand only
blanks, so that blanks and spellings in turn are the source. The symbol behind a run of
ordinary characters is no such run, with no blank in front of it, and no such run starts
with a blank. -/
structure Lossless (source : List Char) (symbols : List Symbol) : Prop where
  ends : ∃ inner, symbols = inner ++ [.atEnd source.length] ∧
    ∀ x ∈ inner, x.kind ≠ .endOfSource ∧ x.start < x.stop
  ordered : symbols.Pairwise fun x y => x.stop ≤ y.start
  spelled : ∀ x ∈ symbols, Source.between source x.start x.stop = x.spelling
  gaps : ((0, 0) :: symbols.map fun x => (x.start, x.stop)).IsChain
    fun x y => x.2 ≤ y.1 ∧ Blank (Source.between source x.2 y.1)
  rebuilt : ∃ gaps : List (List Char), gaps.length = symbols.length ∧
    (∀ gap ∈ gaps, Blank gap) ∧
    source = (List.zipWith (fun gap x => gap ++ spelling x) gaps symbols).flatten
  apart : symbols.IsChain fun x y => x.kind = .ordinary → y.kind ≠ .ordinary ∧ y.start = x.stop
  not_blank : ∀ x ∈ symbols, x.kind = .ordinary → ∀ c ∈ x.spelling.head?, isBlank c = false

/-- The symbols that a source is cut into, and the blanks skipped between them, are
the whole source. -/
theorem tokenize_lossless {source : List Char} {symbols : List Symbol}
    (h : tokenize? source = some symbols) : Lossless source symbols := by
  obtain ⟨rfl, length, hlength⟩ := eq_stream_of_tokenize? h
  have htiled : Tiled 0 source (scan source).stream := tiled_of_scanFrom hlength
  have hends := htiled.ends
  rw [Nat.zero_add] at hends
  exact {
    ends := hends
    ordered := htiled.ordered
    spelled := @Tiled.spelled source [] _ htiled
    gaps := @Tiled.gaps source [] _ htiled
    rebuilt := htiled.rebuilt
    apart := htiled.apart
    not_blank := htiled.head_not_blank }

/-- Blanks behind a command word, a formula with a dollar of its own, and a blank at
the end of ordinary characters. -/
theorem lossless_command_with_formula :
    tokenize? "\\STATE  a $x\\$y$ b ".toList =
      some [⟨.word, some "STATE", 0, 6⟩, ⟨.ordinary, some "a ", 8, 10⟩,
        ⟨.math, some "x\\$y", 10, 16⟩, ⟨.ordinary, some "b ", 17, 19⟩, .atEnd 19] ∧
    Lossless "\\STATE  a $x\\$y$ b ".toList
      [⟨.word, some "STATE", 0, 6⟩, ⟨.ordinary, some "a ", 8, 10⟩, ⟨.math, some "x\\$y", 10, 16⟩,
       ⟨.ordinary, some "b ", 17, 19⟩, .atEnd 19] := by
  have h : tokenize? "\\STATE  a $x\\$y$ b ".toList =
      some [⟨.word, some "STATE", 0, 6⟩, ⟨.ordinary, some "a ", 8, 10⟩,
        ⟨.math, some "x\\$y", 10, 16⟩, ⟨.ordinary, some "b ", 17, 19⟩, .atEnd 19] := by
    decide +kernel
  exact ⟨h, tokenize_lossless h⟩

end AlgoBox
