import AlgoBox.Proofs.Driving
import Mathlib.Data.List.Basic

/-!
# A fault stays

Once a use of a reader failed in consuming a symbol, whatever it is used for the reader shows
that symbol and meets that fault again (`Reader.fault_sticks`).

The reader is left `stuck`, and every use of such a reader leaves it as it is (`Use.stays`), so
what the next use gives is the same after any number of them. Answers only ever give symbols
ahead of the reader (`Ahead.symbols_use`), and those end in front of the fault.
-/

namespace AlgoBox

open AlgoBox.Symbol

namespace Reader

variable {source : String} {r last final : Reader} {ss : List Symbol} {ending : Ending}
  {step : Step} {answer : Answer} {fault : Fault}

/-! ## Answers give symbols ahead -/

/-- The symbols of an answer. -/
def Answer.symbols : Answer → List Symbol
  | .symbol s => [s]
  | .run result => result.symbols
  | _ => []

/-- What a run gives are the first of the symbols ahead. -/
theorem Ahead.run_prefix (hr : Ahead ending r ss) (count : Nat) :
    (Reader.run count r).1.symbols <+: ss := by
  induction count generalizing r ss with
  | zero => exact List.nil_prefix
  | succ count ih =>
      obtain ⟨s, rest, rfl⟩ := hr.exists_cons
      unfold Reader.run
      rw [hr.current_eq]
      by_cases hend : s.kind = .endOfSource
      · rw [if_pos hend]
        exact ⟨rest, rfl⟩
      · rw [if_neg hend]
        rcases hr.consume with ⟨-, next, heq, hnext⟩ | ⟨hs, -⟩ | ⟨-, -, offset, next, -, heq⟩
        · rw [heq]
          exact List.cons_prefix_cons.2 ⟨rfl, ih hnext⟩
        · exact absurd (kind_eq_endOfSource_iff.2 hs) hend
        · rw [heq]
          exact List.nil_prefix

theorem Ahead.symbols_use (hr : Ahead ending r ss) (h : Use source r step answer final) :
    ∀ x ∈ answer.symbols, x ∈ ss := by
  cases h with
  | current =>
      obtain ⟨s, rest, rfl⟩ := hr.exists_cons
      intro x hx
      rw [List.mem_singleton.1 hx, hr.current_eq]
      exact List.mem_cons_self
  | source | consumed | failed => exact nofun
  | refused hasks => cases hasks <;> exact nofun
  | run => exact fun x hx => (hr.run_prefix _).subset hx

theorem Ahead.symbols_performAll (hr : Ahead ending r ss) (source : String) (steps : List Step) :
    ∀ p ∈ r.performAll source steps, ∀ x ∈ p.1.symbols, x ∈ ss := by
  induction steps generalizing r ss with
  | nil => exact fun p hp => absurd hp List.not_mem_nil
  | cons step steps ih =>
      have huse := use_perform source r step
      obtain ⟨rest, hrest, hnext⟩ := hr.use huse
      have hcons : r.performAll source (step :: steps) =
          r.perform source step :: (r.perform source step).2.performAll source steps := rfl
      rw [hcons]
      refine List.forall_mem_cons.2 ⟨hr.symbols_use huse, ?_⟩
      exact fun p hp x hx => hrest.subset (ih hnext p hp x hx)

/-! ## Stuck readers -/

section Stuck

variable {s : Symbol} {offset : Nat} (hs : s.kind ≠ .endOfSource)
include hs

theorem run_stuck (count : Nat) :
    run count (stuck s offset) =
      (⟨[], if count = 0 then none else some ⟨.unrecognizable, offset⟩⟩, stuck s offset) := by
  cases count with
  | zero => rfl
  | succ count =>
      rw [run, if_neg (show (stuck s offset).current.kind ≠ .endOfSource from hs)]
      rfl

theorem Use.stays (h : Use source (stuck s offset) step answer final) : final = stuck s offset := by
  cases h with
  | current | source | refused => rfl
  | consumed _ _ hconsume => cases hconsume
  | failed _ _ hconsume =>
      cases hconsume
      rfl
  | run => rw [run_stuck hs]

/-- A stuck reader stays as it is. -/
theorem driven_stuck (source : String) (steps : List Step) :
    (stuck s offset).driven source steps = stuck s offset :=
  List.foldl_fixed' (fun step => (use_perform source _ step).stays hs) steps

end Stuck

/-- What a reader shows, and what a further use of it gives, if it failed in consuming a
symbol. The symbol is still the current one, while text and end told are those of the symbol
already. Accepting or expecting it meets the same fault again; another symbol is not
accepted, and to expect one is a syntactic fault at the symbol. A run gives no symbol, and
meets the same fault again if it is to give any. -/
structure IsStuck (source : String) (fault : Fault) (s : Symbol) (r : Reader) : Prop where
  current_eq : r.current = s
  lastText_eq : r.lastText = s.text
  lastEnd_eq : r.lastEnd = s.stop
  accept : ∀ kind wanted, (r.perform source (.accept kind wanted)).1 =
    if r.holds kind wanted then .fault fault else .text none
  expect : ∀ kind wanted, (s.mismatch kind wanted).category = .syntactic ∧
    (r.perform source (.expect kind wanted)).1 =
      .fault (if r.holds kind wanted then fault else ⟨s.mismatch kind wanted, s.start⟩)
  run : ∀ count, (r.perform source (.run count)).1 =
    .run ⟨[], if count = some 0 then none else some fault⟩

/-- What asking a stuck reader for a symbol gives. -/
theorem Use.of_stuck {s : Symbol} {offset : Nat} {kind : Kind} {wanted : Wanted}
    (h : Use source (stuck s offset) step answer final) (hasks : step.Asks kind wanted) :
    answer = if (stuck s offset).holds kind wanted then .fault ⟨.unrecognizable, offset⟩
      else (stuck s offset).refusal step := by
  cases h with
  | current | source | run => cases hasks
  | consumed _ _ hconsume => cases hconsume
  | failed hasks' hholds hconsume =>
      cases hconsume
      cases hasks <;> cases hasks' <;> rw [if_pos hholds]
  | refused hasks' hholds =>
      cases hasks <;> cases hasks' <;> rw [if_neg (Bool.eq_false_iff.1 hholds)]

theorem isStuck_stuck {s : Symbol} (hs : s.kind ≠ .endOfSource) (source : String) (offset : Nat) :
    IsStuck source ⟨.unrecognizable, offset⟩ s (stuck s offset) where
  current_eq := rfl
  lastText_eq := rfl
  lastEnd_eq := rfl
  accept kind wanted := (use_perform source _ _).of_stuck .accept
  expect kind wanted := by
    refine ⟨category_mismatch _ _ _, ?_⟩
    rw [(use_perform source _ _).of_stuck .expect]
    split <;> rfl
  run count := by
    cases count with
    | none => exact congrArg (Answer.run ·.1) (run_stuck hs ((stuck s offset).remaining + 1))
    | some count =>
        refine (congrArg (Answer.run ·.1) (run_stuck hs count)).trans ?_
        simp

/-! ## Failing -/

/-- The symbol that a use could not consume: the one behind those that its answer gives. -/
def failing (r : Reader) (answer : Answer) : Symbol :=
  (run answer.symbols.length r).2.current

theorem run_of_consumes (h : Consumes r ss last) (hss : ∀ x ∈ ss, x.kind ≠ .endOfSource) :
    run ss.length r = (⟨ss, none⟩, last) := by
  induction h with
  | refl => rfl
  | cons hconsume _ ih =>
      obtain ⟨hs, hss⟩ := List.forall_mem_cons.1 hss
      rw [List.length_cons, run, if_neg hs, hconsume]
      show (_, _) = _
      rw [ih hss]

theorem Use.consumedBy_of_fault (h : Use source r step answer final)
    (hfault : answer.fault? = some fault) :
    consumedBy r step answer = withoutEnd answer.symbols := by
  cases h with
  | current | source | consumed => cases hfault
  | failed hasks => cases hasks <;> rfl
  | refused hasks => cases hasks <;> rfl
  | run => rfl

theorem Ahead.proper {offset : Nat} (hr : Ahead (.unrecognized offset) r ss) :
    ∀ x ∈ ss, x.Proper := by
  generalize hending : Ending.unrecognized offset = ending at hr
  cases hr with
  | atEnd h => cases hending.trans h
  | inside hproper =>
      subst hending
      rwa [Ending.symbols, List.append_nil]

/-- A use that fails gives all the symbols ahead but the last, and the reader is stuck at
that. -/
theorem Ahead.use_fault (hr : Ahead ending r ss) (h : Use source r step answer final)
    (hfault : answer.fault? = some fault) (hlexical : fault.cause.category = .lexical) :
    ∃ offset, ending = .unrecognized offset ∧ fault = ⟨.unrecognizable, offset⟩ ∧
      final = stuck (failing r answer) offset ∧ ss = answer.symbols ++ [failing r answer] := by
  obtain ⟨last, hconsumes, hends⟩ := h.uses
  rw [h.consumedBy_of_fault hfault] at hconsumes
  rw [hfault] at hends
  obtain ⟨rest, hrest, hss, -⟩ := hr.consumes hconsumes
  cases hends with
  | refused hcategory =>
      rw [hcategory] at hlexical
      cases hlexical
  | failed hconsume =>
      obtain ⟨offset, rfl, rfl, rfl, rfl, -⟩ := hrest.of_consume_error hconsume
      have hproper := fun x hx => hr.proper x (hr.symbols_use h x hx)
      have hwithout := withoutEnd_of_proper hproper
      rw [hwithout] at hconsumes
      rw [hwithout, hwithout] at hss
      have hfailing : failing r answer = last.current := by
        unfold failing
        rw [run_of_consumes hconsumes fun x hx => (hproper x hx).kind_ne]
      rw [hfailing]
      exact ⟨offset, rfl, rfl, rfl, hss⟩

/-- Once a use of a reader failed in consuming a symbol, whatever it is used for then the reader
shows that symbol and meets that fault again, and no answer before or after has a symbol that
reaches beyond the fault. -/
theorem fault_sticks {source : String} {r : Reader} (hr : ofSource source.toList = .ok r)
    {before : List Step} {step : Step} {fault : Fault}
    (hfault : ((r.driven source before).perform source step).1.fault? = some fault)
    (hlexical : fault.cause.category = .lexical) (later : List Step) :
    IsStuck source fault
        (failing (r.driven source before) ((r.driven source before).perform source step).1)
        (r.driven source (before ++ step :: later)) ∧
      ∀ p ∈ r.performAll source (before ++ step :: later), ∀ x ∈ p.1.symbols,
        x.stop ≤ fault.offset := by
  have hahead := ahead_scan hr
  obtain ⟨ss, hss, hbefore⟩ := hahead.driven source before
  obtain ⟨offset, hending, rfl, hstuck, rfl⟩ :=
    hbefore.use_fault (use_perform source _ step) hfault hlexical
  refine ⟨?_, fun p hp x hx => ?_⟩
  · rw [hending] at hbefore
    have hkind := (hbefore.proper _
      (List.mem_append_right _ (List.mem_singleton_self _))).kind_ne
    have hdriven : r.driven source (before ++ step :: later) =
        ((r.driven source before).perform source step).2.driven source later := by
      unfold driven
      rw [List.foldl_append, List.foldl_cons]
    rw [hdriven, hstuck, driven_stuck hkind]
    exact isStuck_stuck hkind source offset
  · have hmem := hahead.symbols_performAll source _ p hp x hx
    rw [Scan.stream, hending, Ending.symbols, List.append_nil] at hmem
    have hstop := stop_le_ending 0 source.toList x hmem
    change x.stop ≤ (scan source.toList).ending.offset at hstop
    rwa [hending] at hstop

/-- A run that meets a percent sign, and two uses behind it. -/
theorem fault_sticks_at_percent :
    ∃ r, ofSource "\\STATE x %".toList = .ok r ∧
      IsStuck "\\STATE x %" ⟨.unrecognizable, 9⟩ ⟨.ordinary, some "x ", 7, 9⟩
        (r.driven "\\STATE x %"
          [.current, .run none, .expect .math .any, .accept .ordinary .any]) := by
  have hsource : ofSource "\\STATE x %".toList =
      .ok ⟨⟨.word, some "STATE", 0, 6⟩, [⟨.ordinary, some "x ", 7, 9⟩], .unrecognized 9,
        none, 0⟩ := by
    decide +kernel
  have hsticks := @fault_sticks _ _ hsource [.current] (.run none) ⟨.unrecognizable, 9⟩ rfl rfl
    [.expect .math .any, .accept .ordinary .any]
  exact ⟨_, hsource, hsticks.1⟩

end Reader

end AlgoBox
