import AlgoBox.Proofs.Lossless

/-!
# Reading along

However a reader of a source is used, the symbols it consumes and the current one are the first
of those that the source is cut into, and the text and the end that it tells are those of the
symbol consumed last (`Reader.driven_readsAlong`).

`Use` says what one use of a reader can do: look, consume the current symbol, fail in consuming
it, refuse it, or run. What many uses come to is that symbols are consumed one behind the other
(`Consumes`), and what is ahead of the reader then is what was ahead without them
(`Ahead.consumes`).
-/

namespace AlgoBox

open AlgoBox.Symbol Text

/-- Why a symbol is not the expected one. -/
def Symbol.mismatch (s : Symbol) (kind : Kind) (wanted : Wanted) : Fault.Cause :=
  if s.kind = kind then .wrongText wanted s.text else .wrongKind kind s.kind

theorem Symbol.category_mismatch (s : Symbol) (kind : Kind) (wanted : Wanted) :
    (s.mismatch kind wanted).category = .syntactic := by
  unfold mismatch
  split <;> rfl

namespace Reader

/-! ## One use -/

/-- The use asks for a symbol of a kind with a wanted text. -/
inductive Step.Asks (kind : Kind) (wanted : Wanted) : Step → Prop
  | accept : Asks kind wanted (.accept kind wanted)
  | expect : Asks kind wanted (.expect kind wanted)

/-- What a use gives that asks for another symbol than the current one. -/
def refusal (r : Reader) : Step → Answer
  | .expect kind wanted => .fault ⟨r.current.mismatch kind wanted, r.current.start⟩
  | _ => .text none

/-- The fault that an answer tells of. -/
def Answer.fault? : Answer → Option Fault
  | .fault f => some f
  | .run result => result.stopped
  | _ => none

/-- What one use of a reader gives, and the reader after it. -/
inductive Use (source : String) (r : Reader) : Step → Answer → Reader → Prop
  | current : Use source r .current (.symbol r.current) r
  | source : Use source r .source (.text (some source)) r
  | consumed {step : Step} {kind : Kind} {wanted : Wanted} {text : String} {r' : Reader} :
      step.Asks kind wanted → r.holds kind wanted = true → consume r = .ok text r' →
      Use source r step (.text (some text)) r'
  | failed {step : Step} {kind : Kind} {wanted : Wanted} {fault : Fault} {r' : Reader} :
      step.Asks kind wanted → r.holds kind wanted = true → consume r = .error fault r' →
      Use source r step (.fault fault) r'
  | refused {step : Step} {kind : Kind} {wanted : Wanted} :
      step.Asks kind wanted → r.holds kind wanted = false → Use source r step (r.refusal step) r
  | run {count : Option Nat} :
      Use source r (.run count) (.run (Reader.run (count.getD (r.remaining + 1)) r).1)
        (Reader.run (count.getD (r.remaining + 1)) r).2

variable {source : String} {r last final : Reader} {ss : List Symbol} {ending : Ending}
  {step : Step} {answer : Answer} {fault : Fault}

theorem use_accept (source : String) (r : Reader) (kind : Kind) (wanted : Wanted) :
    Use source r (.accept kind wanted) (r.perform source (.accept kind wanted)).1
      (r.perform source (.accept kind wanted)).2 := by
  have haccept : accept kind wanted r =
      if r.holds kind wanted then EStateM.bind consume (fun text => pure (some text)) r
      else .ok none r := by
    show (if r.holds kind wanted then _ else _ : ReadM (Option String)) r = _
    split <;> rfl
  unfold perform
  dsimp only
  rw [haccept]
  cases hholds : r.holds kind wanted with
  | false => exact .refused .accept hholds
  | true =>
      rw [if_pos rfl]
      unfold EStateM.bind
      cases hconsume : consume r with
      | ok text r' => exact .consumed .accept hholds hconsume
      | error fault r' => exact .failed .accept hholds hconsume

theorem use_expect (source : String) (r : Reader) (kind : Kind) (wanted : Wanted) :
    Use source r (.expect kind wanted) (r.perform source (.expect kind wanted)).1
      (r.perform source (.expect kind wanted)).2 := by
  have hexpect : expect kind wanted r =
      if r.holds kind wanted then consume r
      else .error ⟨r.current.mismatch kind wanted, r.current.start⟩ r := by
    show (if r.current.kind ≠ kind then _ else _ : ReadM String) r = _
    unfold holds mismatch
    by_cases hkind : r.current.kind = kind
    · cases wanted.admits r.current.text with
      | true => simp [hkind]
      | false =>
          simp [hkind]
          rfl
    · simp [hkind]
      rfl
  unfold perform
  dsimp only
  rw [hexpect]
  cases hholds : r.holds kind wanted with
  | false => exact .refused .expect hholds
  | true =>
      rw [if_pos rfl]
      cases hconsume : consume r with
      | ok text r' => exact .consumed .expect hholds hconsume
      | error fault r' => exact .failed .expect hholds hconsume

/-- What a reader gives is one of those. -/
theorem use_perform (source : String) (r : Reader) (step : Step) :
    Use source r step (r.perform source step).1 (r.perform source step).2 := by
  cases step with
  | current => exact .current
  | source => exact .source
  | accept kind wanted => exact use_accept source r kind wanted
  | expect kind wanted => exact use_expect source r kind wanted
  | run count => cases count <;> exact .run

/-! ## Consuming -/

/-- A reader that could not consume its current symbol, because no symbol starts at an offset
behind it. -/
def stuck (s : Symbol) (offset : Nat) : Reader := ⟨s, [], .unrecognized offset, s.text, s.stop⟩

theorem of_consume_error {r' : Reader} (h : consume r = .error fault r') :
    ∃ offset, fault = ⟨.unrecognizable, offset⟩ ∧ r' = stuck r.current offset := by
  obtain ⟨current, upcoming, ending, lastText, lastEnd⟩ := r
  cases upcoming with
  | cons s rest => cases h
  | nil =>
      cases ending with
      | complete length => cases h
      | unrecognized offset =>
          cases h
          exact ⟨offset, rfl, rfl⟩

/-- Consuming some symbols one behind the other. -/
inductive Consumes : Reader → List Symbol → Reader → Prop
  | refl {r : Reader} : Consumes r [] r
  | cons {r r' last : Reader} {text : String} {ss : List Symbol} :
      consume r = .ok text r' → Consumes r' ss last → Consumes r (r.current :: ss) last

theorem Consumes.append {mid : Reader} {ts : List Symbol} (h : Consumes r ss mid)
    (h' : Consumes mid ts last) : Consumes r (ss ++ ts) last := by
  induction h with
  | refl => exact h'
  | cons hconsume _ ih => exact .cons hconsume (ih h')

/-- The reader tells the text and the end of the symbol consumed last. -/
theorem Consumes.last_eq (h : Consumes r ss last) :
    last.lastText = ss.getLast?.elim r.lastText (·.text) ∧
      last.lastEnd = ss.getLast?.elim r.lastEnd (·.stop) := by
  induction h with
  | refl => exact ⟨rfl, rfl⟩
  | @cons r r' last text ss hconsume _ ih =>
      obtain ⟨htext, hend⟩ := last_of_consume hconsume
      rw [htext, hend] at ih
      rw [List.getLast?_cons]
      cases hlast : ss.getLast? with
      | none =>
          rw [hlast] at ih
          exact ih
      | some s =>
          rw [hlast] at ih
          exact ih

/-- Where a use leads to that consumed some symbols, and the fault that it met there: in
consuming the next symbol, or because that is not the expected one. -/
inductive EndsAt (last : Reader) : Reader → Option Fault → Prop
  | behind : EndsAt last last none
  | failed {fault : Fault} {final : Reader} : consume last = .error fault final →
      EndsAt last final (some fault)
  | refused {fault : Fault} : fault.cause.category = .syntactic → EndsAt last last (some fault)

/-- The symbols that a use consumes: the current one, if it is accepted or expected, and those
that a run gives, all but the end of the source. -/
def consumedBy (r : Reader) : Step → Answer → List Symbol
  | .accept .., .text (some _) | .expect .., .text _ => [r.current]
  | .run _, .run result => withoutEnd result.symbols
  | _, _ => []

theorem run_uses (count : Nat) (r : Reader) :
    ∃ last, Consumes r (withoutEnd (run count r).1.symbols) last ∧
      EndsAt last (run count r).2 (run count r).1.stopped := by
  induction count generalizing r with
  | zero => exact ⟨r, .refl, .behind⟩
  | succ count ih =>
      unfold run
      by_cases hend : r.current.kind = .endOfSource
      · -- the end of the source is given and not consumed
        rw [if_pos hend]
        have hwithout : withoutEnd [r.current] = [] := by simp [withoutEnd, hend]
        rw [hwithout]
        exact ⟨r, .refl, .behind⟩
      · rw [if_neg hend]
        cases hconsume : consume r with
        | error fault r' => exact ⟨r, .refl, .failed hconsume⟩
        | ok text r' =>
            obtain ⟨last, hrest, hends⟩ := ih r'
            have hwithout : ∀ ss, withoutEnd (r.current :: ss) = r.current :: withoutEnd ss := by
              intro ss
              simp [withoutEnd, hend]
            refine ⟨last, ?_, hends⟩
            show Consumes r (withoutEnd (r.current :: (run count r').1.symbols)) last
            rw [hwithout]
            exact .cons hconsume hrest

/-- A use consumes symbols one behind the other, up to where it ends. -/
theorem Use.uses (h : Use source r step answer final) :
    ∃ last, Consumes r (consumedBy r step answer) last ∧ EndsAt last final answer.fault? := by
  cases h with
  | current => exact ⟨r, .refl, .behind⟩
  | source => exact ⟨r, .refl, .behind⟩
  | consumed hasks _ hconsume => cases hasks <;> exact ⟨final, .cons hconsume .refl, .behind⟩
  | failed hasks _ hconsume => cases hasks <;> exact ⟨r, .refl, .failed hconsume⟩
  | refused hasks =>
      cases hasks with
      | accept => exact ⟨r, .refl, .behind⟩
      | expect => exact ⟨r, .refl, .refused (category_mismatch _ _ _)⟩
  | run => exact run_uses _ r

/-! ## What is ahead then -/

/-- Between an offset and the first of some symbols, and between each of them and the next one,
stand only blanks. -/
def Spaced (source : List Char) (offset : Nat) (ss : List Symbol) : Prop :=
  ((0, offset) :: ss.map fun x => (x.start, x.stop)).IsChain
    fun x y => x.2 ≤ y.1 ∧ Blank (Source.between source x.2 y.1)

theorem Spaced.tail {text : List Char} {offset : Nat} {s : Symbol}
    (h : Spaced text offset (s :: ss)) : Spaced text s.stop ss := by
  obtain ⟨-, htail⟩ := List.isChain_cons_cons.1 h
  exact List.isChain_cons.2 (List.isChain_cons.1 htail)

theorem spaced_end (text : List Char) (length : Nat) : Spaced text length [.atEnd length] := by
  refine .cons_cons ⟨Nat.le_refl _, ?_⟩ (.singleton _)
  simp [Source.between, Symbol.atEnd, Blank]

/-- The symbols ahead of a reader are those that it consumes and those that are ahead then, but
for the end of the source, which can be consumed again and again. -/
theorem Ahead.consumes (hr : Ahead ending r ss) {consumed : List Symbol}
    (h : Consumes r consumed last) :
    ∃ rest, Ahead ending last rest ∧ ss = withoutEnd consumed ++ rest ∧
      ∀ text, Spaced text r.lastEnd ss → Spaced text last.lastEnd rest := by
  induction h generalizing ss with
  | refl => exact ⟨ss, hr, rfl, fun _ => id⟩
  | @cons r r' last text consumed hconsume _ ih =>
      obtain ⟨s, more, rfl⟩ := hr.exists_cons
      have hcurrent := hr.current_eq
      obtain ⟨-, hend⟩ := last_of_consume hconsume
      rcases hr.consume with ⟨hs, next, heq, hnext⟩ | ⟨hs, rfl, next, heq, hnext⟩ |
        ⟨-, -, offset, next, -, heq⟩
      · rw [hconsume] at heq
        cases heq
        obtain ⟨rest, hrest, rfl, hspaced⟩ := ih hnext
        refine ⟨rest, hrest, ?_, fun text h => hspaced text ?_⟩
        · rw [hcurrent]
          simp [withoutEnd, mt kind_eq_endOfSource_iff.1 hs]
        · rw [hend, hcurrent]
          exact h.tail
      · rw [hconsume] at heq
        cases heq
        obtain ⟨rest, hrest, hwithout, hspaced⟩ := ih hnext
        refine ⟨rest, hrest, ?_, fun text _ => hspaced text ?_⟩
        · rw [hcurrent, hwithout]
          simp [withoutEnd, kind_eq_endOfSource_iff.2 hs]
        · obtain ⟨length, rfl⟩ := hr.eq_atEnd hs
          rw [hend, hcurrent]
          exact spaced_end text length
      · rw [hconsume] at heq
        cases heq

/-- Consuming fails only where nothing is left but the current symbol. -/
theorem Ahead.of_consume_error {r' : Reader} (hr : Ahead ending r ss)
    (h : Reader.consume r = .error fault r') :
    ∃ offset, ending = .unrecognized offset ∧ fault = ⟨.unrecognizable, offset⟩ ∧
      r' = stuck r.current offset ∧ ss = [r.current] ∧ r.current.Proper := by
  cases hr with
  | atEnd hending =>
      subst hending
      cases h
  | @inside s rest lastText lastEnd hproper =>
      cases rest with
      | cons next rest => cases h
      | nil =>
          cases ending with
          | complete length => cases h
          | unrecognized offset =>
              cases h
              exact ⟨offset, rfl, rfl, rfl, rfl, hproper s List.mem_cons_self⟩

theorem ahead_stuck {s : Symbol} (hs : s.Proper) (offset : Nat) :
    Ahead (.unrecognized offset) (stuck s offset) [s] :=
  .inside (List.forall_mem_singleton.2 hs)

/-- Behind a use the last of the symbols ahead are ahead. -/
theorem Ahead.use (hr : Ahead ending r ss) (h : Use source r step answer final) :
    ∃ rest, rest <:+ ss ∧ Ahead ending final rest := by
  obtain ⟨last, hconsumes, hends⟩ := h.uses
  obtain ⟨rest, hrest, rfl, -⟩ := hr.consumes hconsumes
  refine ⟨rest, List.suffix_append _ _, ?_⟩
  generalize answer.fault? = met at hends
  cases hends with
  | behind => exact hrest
  | refused => exact hrest
  | failed hconsume =>
      obtain ⟨offset, rfl, -, rfl, rfl, hproper⟩ := hrest.of_consume_error hconsume
      exact ahead_stuck hproper offset

/-- In a source that is cut to its end no use fails in consuming a symbol. -/
theorem Ahead.use_complete {length : Nat} (hr : Ahead (.complete length) r ss)
    (h : Use source r step answer final) :
    Consumes r (consumedBy r step answer) final ∧
      ∀ fault ∈ answer.fault?, fault.cause.category = .syntactic := by
  obtain ⟨last, hconsumes, hends⟩ := h.uses
  obtain ⟨rest, hrest, -⟩ := hr.consumes hconsumes
  generalize answer.fault? = met at hends
  cases hends with
  | behind => exact ⟨hconsumes, nofun⟩
  | refused hcategory =>
      refine ⟨hconsumes, ?_⟩
      rintro _ ⟨⟩
      exact hcategory
  | failed hconsume =>
      obtain ⟨offset, hending, -⟩ := hrest.of_consume_error hconsume
      cases hending

/-! ## Many uses -/

/-- A reader after some uses. -/
def driven (source : String) (r : Reader) (steps : List Step) : Reader :=
  steps.foldl (fun r step => (r.perform source step).2) r

/-- The symbols that some uses of a reader consume, in order. -/
def consumed (source : String) : Reader → List Step → List Symbol
  | _, [] => []
  | r, step :: rest =>
    consumedBy r step (r.perform source step).1 ++ consumed source (r.perform source step).2 rest

theorem Ahead.driven (hr : Ahead ending r ss) (source : String) (steps : List Step) :
    ∃ rest, rest <:+ ss ∧ Ahead ending (r.driven source steps) rest := by
  induction steps generalizing r ss with
  | nil => exact ⟨ss, List.suffix_refl _, hr⟩
  | cons step steps ih =>
      obtain ⟨mid, hmid, hnext⟩ := hr.use (use_perform source r step)
      obtain ⟨rest, hrest, hlast⟩ := ih hnext
      exact ⟨rest, hrest.trans hmid, hlast⟩

theorem consumes_driven {length : Nat} (hr : Ahead (.complete length) r ss) (source : String)
    (steps : List Step) : Consumes r (consumed source r steps) (r.driven source steps) := by
  induction steps generalizing r ss with
  | nil => exact .refl
  | cons step steps ih =>
      have huse := use_perform source r step
      obtain ⟨rest, -, hnext⟩ := hr.use huse
      exact (hr.use_complete huse).1.append (ih hnext)

/-! ## The stream -/

/-- What some uses of a reader of a source with given symbols have come to. The symbols
consumed and the current one are those that the source begins with. Text and end told are
those of the symbol consumed last, and from there to the current symbol there are only
blanks. -/
structure ReadsAlong (source : List Char) (symbols consumed : List Symbol) (r : Reader) :
    Prop where
  in_order : withoutEnd consumed ++ [r.current] <+: symbols
  lastText_eq : r.lastText = consumed.getLast?.elim none (·.text)
  lastEnd_eq : r.lastEnd = consumed.getLast?.elim 0 (·.stop)
  lastEnd_le : r.lastEnd ≤ r.current.start
  gap : Blank (Source.between source r.lastEnd r.current.start)

/-- The answer says that the current symbol is not the wanted one. -/
def Answer.Refuses : Step → Answer → Prop
  | .accept .., .text none => True
  | .expect .., .fault f => f.cause.category = .syntactic
  | _, _ => False

theorem Use.eq_of_refuses (h : Use source r step answer final) (hrefuses : answer.Refuses step) :
    final = r := by
  cases h with
  | refused => rfl
  | current | source | run => exact hrefuses.elim
  | consumed hasks => cases hasks <;> exact hrefuses.elim
  | failed hasks _ hconsume =>
      obtain ⟨offset, rfl, -⟩ := of_consume_error hconsume
      cases hasks with
      | accept => exact hrefuses.elim
      | expect => cases hrefuses

/-- In a source that is cut to its end a use refuses just what it does not ask for. -/
theorem Ahead.refuses_iff {length : Nat} {kind : Kind} {wanted : Wanted}
    (hr : Ahead (.complete length) r ss) (h : Use source r step answer final)
    (hasks : step.Asks kind wanted) : answer.Refuses step ↔ r.holds kind wanted = false := by
  cases h with
  | current | source | run => cases hasks
  | consumed hasks' hholds =>
      cases hasks <;> cases hasks' <;> simp [Answer.Refuses, hholds]
  | failed _ _ hconsume =>
      obtain ⟨offset, hending, -⟩ := hr.of_consume_error hconsume
      cases hending
  | refused hasks' hholds =>
      cases hasks with
      | accept =>
          cases hasks'
          exact iff_of_true trivial hholds
      | expect =>
          cases hasks'
          exact iff_of_true (category_mismatch _ _ _) hholds

/-- However a reader of a source is used that can be cut to its end, the symbols consumed and
the current one are those that a new reader would give first, and the reader tells of the one
consumed last. Only a symbol that is not asked for is refused, and that changes nothing. -/
theorem driven_readsAlong {source : String} {symbols : List Symbol}
    (h : tokenize? source.toList = some symbols) :
    ∃ r, ofSource source.toList = .ok r ∧ ∀ steps : List Step,
      ReadsAlong source.toList symbols (consumed source r steps) (r.driven source steps) ∧
      ∀ step answer next, (r.driven source steps).perform source step = (answer, next) →
        (∀ fault ∈ answer.fault?, fault.cause.category = .syntactic) ∧
        (∀ kind wanted, step.Asks kind wanted →
          (answer.Refuses step ↔ (r.driven source steps).holds kind wanted = false)) ∧
        (answer.Refuses step → next = r.driven source steps) := by
  obtain ⟨rfl, length, hlength⟩ := eq_stream_of_tokenize? h
  have hspaced : Spaced source.toList 0 (scan source.toList).stream :=
    @Tiled.gaps source.toList [] _ (tiled_of_scanFrom hlength)
  obtain ⟨r, hr⟩ := exists_ofScan (scan source.toList).symbols length
  rw [← hlength] at hr
  have hahead := ahead_scan hr
  obtain ⟨htext, hend⟩ := last_of_ofScan hr
  rw [hlength] at hahead
  refine ⟨r, hr, fun steps => ⟨?_, fun step answer next hperform => ?_⟩⟩
  · have hconsumes := consumes_driven hahead source steps
    obtain ⟨hlastText, hlastEnd⟩ := hconsumes.last_eq
    obtain ⟨rest, hrest, hstream, hkeeps⟩ := hahead.consumes hconsumes
    obtain ⟨s, more, rfl⟩ := hrest.exists_cons
    rw [hend] at hkeeps
    obtain ⟨⟨hle, hgap⟩, -⟩ := List.isChain_cons_cons.1 (hkeeps source.toList hspaced)
    rw [← hrest.current_eq] at hstream hle hgap
    exact {
      in_order := ⟨more, by rw [hstream, List.append_assoc, List.singleton_append]⟩
      lastText_eq := by rw [hlastText, htext]
      lastEnd_eq := by rw [hlastEnd, hend]
      lastEnd_le := hle
      gap := hgap }
  · have huse := use_perform source (r.driven source steps) step
    rw [hperform] at huse
    obtain ⟨rest, -, hrest⟩ := hahead.driven source steps
    refine ⟨(hrest.use_complete huse).2, fun _ _ hasks => ?_, huse.eq_of_refuses⟩
    exact hrest.refuses_iff huse hasks

/-- A run that stops early, two refusals, a run to the end, which is then consumed. -/
theorem readsAlong_command_with_formula :
    tokenize? "\\STATE  a $x$ ".toList =
      some [⟨.word, some "STATE", 0, 6⟩, ⟨.ordinary, some "a ", 8, 10⟩,
        ⟨.math, some "x", 10, 13⟩, .atEnd 14] ∧
    ∃ r, ofSource "\\STATE  a $x$ ".toList = .ok r ∧
      ReadsAlong "\\STATE  a $x$ ".toList
        [⟨.word, some "STATE", 0, 6⟩, ⟨.ordinary, some "a ", 8, 10⟩,
          ⟨.math, some "x", 10, 13⟩, .atEnd 14]
        [⟨.word, some "STATE", 0, 6⟩, ⟨.ordinary, some "a ", 8, 10⟩,
          ⟨.math, some "x", 10, 13⟩, .atEnd 14]
        (r.driven "\\STATE  a $x$ " [.run (some 1), .accept .math .any,
          .expect .ordinary (.only "b"), .run none, .expect .endOfSource .any]) ∧
      ((r.driven "\\STATE  a $x$ " [.run (some 1)]).perform "\\STATE  a $x$ "
        (.accept .math .any)).2 = r.driven "\\STATE  a $x$ " [.run (some 1)] := by
  have h : tokenize? "\\STATE  a $x$ ".toList =
      some [⟨.word, some "STATE", 0, 6⟩, ⟨.ordinary, some "a ", 8, 10⟩,
        ⟨.math, some "x", 10, 13⟩, .atEnd 14] := by
    decide +kernel
  obtain ⟨r, hr, hreads⟩ := driven_readsAlong h
  have hsource : ofSource "\\STATE  a $x$ ".toList =
      .ok ⟨⟨.word, some "STATE", 0, 6⟩, [⟨.ordinary, some "a ", 8, 10⟩,
        ⟨.math, some "x", 10, 13⟩], .complete 14, none, 0⟩ := by
    decide +kernel
  rw [hsource] at hr
  cases hr
  refine ⟨h, _, hsource, (hreads [.run (some 1), .accept .math .any,
    .expect .ordinary (.only "b"), .run none, .expect .endOfSource .any]).1, ?_⟩
  exact ((hreads [.run (some 1)]).2 (.accept .math .any) _ _ rfl).2.2 trivial

end Reader

end AlgoBox
