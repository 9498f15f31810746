import AlgoBox.Proofs.Erasure
import AlgoBox.Proofs.Lockstep

/-!
# One symbol of lookahead, and progress with it

Every production that may be left out (`Optional`) is told by the current symbol: it gives nothing
exactly where none of its first symbols is ahead, and then the reader stays; what it finds uses up
a symbol (`Predicts`). So no repetition and no nesting goes on for longer than there are symbols.
That is said with the grammar unrolled: behind one round more than symbols remain anything may be
called, and what is read stays the same (`productions_predict_and_end`). The productions are
compared on one and the same reader, in the correspondence in which only equal things correspond.
-/

namespace AlgoBox

open AlgoBox.Symbol Reader Grammar

variable {β γ : Type} {r : Reader} {n bound rounds : Nat} {c d : Calls}

/-! ## A reader and itself -/

namespace Reader

/-- What a computation comes to. The reader behind a fault is not looked at. -/
def comesTo : Outcome β → Except Fault (β × Reader)
  | .ok b s => .ok (b, s)
  | .error fault _ => .error fault

end Reader

namespace Correspondence

/-- A reader corresponds to itself only, and so do offsets and spans. -/
def equality : Correspondence where
  Place := Span
  first := id
  second := id
  Meets := Eq
  Rel := Eq
  Left _ := False
  label_eq := by
    rintro r _ rfl
    rfl
  start_meets := by
    rintro r _ rfl
    rfl
  span_eq := by
    rintro r _ start _ rfl rfl
    rfl
  consume := by
    rintro r _ rfl
    cases hr : Reader.consume r with
    | ok text s => exact .inr (.inl ⟨text, s, s, rfl, rfl, rfl⟩)
    | error fault s => exact .inr (.inr ⟨fault, fault, s, s, rfl, rfl, rfl, rfl⟩)
  left_end := left_end_of_never
  same := False.elim

/-- Only equal results correspond. -/
def View.Strict (v : equality.View β) : Prop := ∀ b c, v.Agree b c → b = c

namespace View.Strict

theorem node : (View.node equality).Strict := by
  intro node node' h
  exact (Node.map_id node).symm.trans (h.trans (Node.map_id node'))

theorem branch : (View.branch equality).Strict := by
  intro arm arm' h
  exact (Branch.map_id arm).symm.trans (h.trans (Branch.map_id arm'))

theorem opening : (openingView equality).Strict := by
  rintro ⟨name, start⟩ ⟨name', start'⟩ ⟨rfl, rfl⟩
  rfl

theorem option {v : equality.View β} (hv : v.Strict) : v.option.Strict := by
  intro o o' h
  cases (h : Option.Rel v.Agree o o') with
  | none => rfl
  | some h => exact congrArg some (hv _ _ h)

theorem list {v : equality.View β} (hv : v.Strict) : v.list.Strict := by
  intro l l' h
  induction (h : List.Forall₂ v.Agree l l') with
  | nil => rfl
  | cons h _ ih => rw [hv _ _ h, ih]

end View.Strict

theorem Ends.comesTo_eq {v : equality.View β} (hv : v.Strict) {Post : β → Reader → Prop}
    {x y : Outcome β} (h : equality.Ends v Post x y) : comesTo x = comesTo y := by
  cases h with
  | ok hagree hrel _ =>
      obtain rfl := hv _ _ hagree
      obtain rfl : _ = _ := hrel
      rfl
  | @error fault fault' _ _ hcause hoffset =>
      obtain ⟨cause, offset⟩ := fault
      obtain ⟨cause', offset'⟩ := fault'
      obtain rfl : cause = cause' := hcause
      obtain rfl : offset = offset' := hoffset
      rfl
  | left hleft => exact hleft.elim

/-- Compared with itself, a computation is known to use up symbols. -/
theorem Alike.remaining_le {v : equality.View β} {m : β → Nat} {p q : ReadM β} {b : β} {s : Reader}
    (h : equality.Alike n m v p q) (hr : r.remaining ≤ n) (hrun : p r = .ok b s) :
    s.remaining ≤ m b := by
  have hends := h.ends rfl hr
  rw [hrun] at hends
  generalize q r = y at hends
  cases hends with
  | ok _ _ hpost => exact hpost
  | left hleft => exact hleft.elim

theorem Alike.comesTo_eq {v : equality.View β} (hv : v.Strict) {m : β → Nat} {p q : ReadM β}
    (h : equality.Alike n m v p q) (hr : r.remaining ≤ n) : comesTo (p r) = comesTo (q r) :=
  (h.ends rfl hr).comesTo_eq hv

end Correspondence

namespace Grammar

open Correspondence

/-! ## Productions that may be left out -/

/-- The productions that may be left out. -/
inductive Optional where
  | environment
  | caption
  | block
  | conditional
  | loop
  | function
  | command (words : List String)
  | comment
  | call
  | leaf

namespace Optional

/-- What a production gives: of an environment its opening, else a node. -/
abbrev Found : Optional → Type
  | environment => String × Nat
  | _ => Node Span

/-- The first symbols of a production. -/
def first : Optional → List (Kind × Wanted)
  | environment => environmentFirst
  | caption => captionFirst
  | block => statementFirst
  | conditional => conditionalFirst
  | loop => loopFirst
  | function => functionFirst
  | command words => commandFirst words
  | comment => commentFirst
  | call => callFirst
  | leaf => leafFirst

/-- A production under a bound. -/
def read (bound : Nat) : (o : Optional) → ReadM (Option o.Found)
  | environment => environment?
  | caption => caption? bound
  | block => block? bound
  | conditional => conditional? bound (block? bound)
  | loop => loop? bound (block? bound)
  | function => function? bound (block? bound)
  | command words => command? words bound
  | comment => comment? bound
  | call => call? bound
  | leaf => leaf?

/-- A production on top of calls. -/
def on (c : Calls) : (o : Optional) → ReadM (Option o.Found)
  | environment => environment?
  | caption => c.caption?
  | block => c.block?
  | conditional => c.conditional?
  | loop => c.loop?
  | function => c.function?
  | command words => c.command? words
  | comment => c.comment?
  | call => c.call?
  | leaf => leaf?

/-- How what a production gives is compared. -/
def view (C : Correspondence) : (o : Optional) → C.View o.Found
  | environment => openingView C
  | caption | block | conditional | loop | function | command _ | comment | call | leaf => .node C

theorem on_bounded (bound : Nat) (o : Optional) : o.on (.bounded bound) = o.read bound := by
  cases o <;> rfl

theorem view_strict (o : Optional) : (o.view equality).Strict := by
  cases o with
  | environment => exact .opening
  | _ => exact .node

theorem first_ne_endOfSource (o : Optional) : ∀ form ∈ o.first, form.1 ≠ .endOfSource := by
  cases o with
  | command words => simp [first, commandFirst]
  | _ => decide

/-- A block is told by its first statement. What the others call does not matter. -/
theorem on_decides {o : Optional} (ho : o ≠ block) : Decides o.first (o.on c) := by
  cases o with
  | environment => exact environment?_decides
  | caption => exact caption?_decides c
  | block => exact absurd rfl ho
  | conditional => exact conditional?_decides c
  | loop => exact loop?_decides c
  | function => exact function?_decides c
  | command words => exact command?_decides c words
  | comment => exact comment?_decides c
  | call => exact call?_decides c
  | leaf => exact leaf?_decides

theorem on_decides_of_statements (o : Optional) (h : c.statements = d.statementsRound) :
    Decides o.first (o.on c) := by
  by_cases ho : o = block
  · subst ho
    show Decides statementFirst (blockOf? c.statements)
    rw [h]
    exact block?_decides d
  · exact on_decides ho

theorem on_idle (o : Optional) (hc : c.Stops) (hr : r.current.kind = .endOfSource) :
    Idle r none (o.on c) := by
  by_cases ho : o = block
  · subst ho
    exact Idle.get_bind ((hc.statements r hr).bind (.pure none))
  · exact (on_decides ho).idle_of_end o.first_ne_endOfSource hr

theorem on_alike {C : Correspondence} (o : Optional) (h : CallsAlike C n c d)
    (hstatements : C.Alike (n + 1) (spentAll (n + 1)) (View.node C).list c.statements
      d.statements) :
    C.Alike (n + 1) (spent (n + 1)) (o.view C).option (o.on c) (o.on d) := by
  cases o with
  | environment => exact environment?_alike
  | caption => exact caption?_alike h
  | block => exact blockOf?_alike hstatements
  | conditional => exact conditional?_alike h
  | loop => exact loop?_alike h
  | function => exact function?_alike h
  | command words => exact command?_alike h words
  | comment => exact comment?_alike h
  | call => exact call?_alike h
  | leaf => exact leaf?_alike

end Optional

/-! ## Telling by one symbol -/

/-- On a reader a production gives nothing exactly where none of its first symbols is ahead, and
then the reader stays; with what it gives fewer symbols remain. -/
structure Predicts (first : List (Kind × Wanted)) (p : ReadM (Option β)) (r : Reader) : Prop where
  none_iff : (∃ s, p r = .ok none s) ↔ ¬r.Starts first
  unchanged : ∀ s, p r = .ok none s → s = r
  progress : ∀ b s, p r = .ok (some b) s → s.remaining < r.remaining

theorem Predicts.of_decides {first : List (Kind × Wanted)} {p : ReadM (Option β)}
    (h : Decides first p) (hprogress : ∀ b s, p r = .ok (some b) s → s.remaining < r.remaining) :
    Predicts first p r where
  none_iff := ⟨fun ⟨_, hs⟩ hr => h.found hr hs, fun hr => ⟨r, h.idle hr⟩⟩
  unchanged s hs := by
    have hidle : p r = .ok none r := h.idle fun hr => h.found hr hs
    rw [hidle] at hs
    cases hs
    rfl
  progress := hprogress

theorem Predicts.of_idle {first : List (Kind × Wanted)} {p : ReadM (Option β)}
    (h : Idle r none p) (hfirst : ¬r.Starts first) : Predicts first p r where
  none_iff := ⟨fun _ => hfirst, fun _ => ⟨r, h⟩⟩
  unchanged s hs := by
    cases h.symm.trans hs
    rfl
  progress b s hs := by cases h.symm.trans hs

/-- Without symbols remaining the end of the source is ahead. -/
theorem kind_of_remaining_eq_zero (h : r.remaining = 0) : r.current.kind = .endOfSource := by
  unfold remaining at h
  by_contra hne
  rw [if_neg hne] at h
  omega

theorem Optional.read_predicts (o : Optional) (hbound : r.remaining ≤ bound) :
    Predicts o.first (o.read bound) r := by
  rw [← o.on_bounded]
  cases hn : r.remaining with
  | zero =>
      have hr := kind_of_remaining_eq_zero hn
      exact .of_idle (o.on_idle (Calls.stops_boundedBy ..) hr)
        (not_starts_of_end o.first_ne_endOfSource hr)
  | succ n =>
      obtain ⟨bound, rfl⟩ : ∃ k, bound = k + 1 := ⟨bound - 1, by omega⟩
      have hstatements := Calls.statements_succ bound
      refine .of_decides (o.on_decides_of_statements hstatements) fun b s hs => ?_
      -- behind its first symbol a production calls on what remains
      have hless : CallsAlike equality n (.bounded (bound + 1)) (.bounded (bound + 1)) :=
        bounded_alike (by omega) (by omega)
      have hmore : CallsAlike equality (n + 1) (.bounded (bound + 1)) (.bounded (bound + 1)) :=
        bounded_alike (by omega) (by omega)
      have halike := o.on_alike hless hmore.statements
      have hle : s.remaining ≤ n := halike.remaining_le (Nat.le_of_eq hn) hs
      omega

/-! ## Unrolled productions -/

/-- On a reader the calls come to the same. -/
structure Calls.SameOn (r : Reader) (c d : Calls) : Prop where
  items : comesTo (c.items r) = comesTo (d.items r)
  laterArms : comesTo (c.laterArms r) = comesTo (d.laterArms r)
  statements : comesTo (c.statements r) = comesTo (d.statements r)
  sections : comesTo (c.sections r) = comesTo (d.sections r)
  parts : comesTo (c.parts r) = comesTo (d.parts r)
  environments : comesTo (c.environments r) = comesTo (d.environments r)

theorem CallsAlike.sameOn (h : CallsAlike equality n c d) (hr : r.remaining ≤ n) :
    Calls.SameOn r c d where
  items := h.items.comesTo_eq (.list .node) hr
  laterArms := h.laterArms.comesTo_eq (.list .branch) hr
  statements := h.statements.comesTo_eq (.list .node) hr
  sections := h.sections.comesTo_eq (.list .node) hr
  parts := h.parts.comesTo_eq (.list .node) hr
  environments := h.environments.comesTo_eq (.list .node) hr

section Unroll

variable (c : Calls) (hbound : r.remaining ≤ bound) (hrounds : r.remaining < rounds)
include hbound hrounds

/-- Up to the symbols that remain, unrolled calls are those under a bound. -/
theorem unroll_alike (hn : n ≤ r.remaining) :
    CallsAlike equality n (c.unroll rounds) (.bounded bound) :=
  (Calls.lasts_unroll c (by omega)).alike (Calls.lasts_bounded (by omega))

theorem Optional.comesTo_unroll (o : Optional) :
    comesTo (o.on (c.unroll rounds) r) = comesTo (o.read bound r) := by
  rw [← o.on_bounded]
  cases hn : r.remaining with
  | zero =>
      have hr := kind_of_remaining_eq_zero hn
      have hlasts : Calls.Lasts 0 (c.unroll rounds) := Calls.lasts_unroll c (by omega)
      have hunrolled : o.on (c.unroll rounds) r = _ := o.on_idle hlasts hr
      have hbounded : o.on (.bounded bound) r = _ := o.on_idle (Calls.stops_boundedBy ..) hr
      rw [hunrolled, hbounded]
  | succ n =>
      have halike := o.on_alike (unroll_alike c hbound hrounds (n := n) (by omega))
        (unroll_alike c hbound hrounds (by omega)).statements
      exact halike.comesTo_eq o.view_strict.option (Nat.le_of_eq hn)

end Unroll

/-- Whatever symbols remain, well-formed or not: each production that may be left out is told by
the current symbol and makes progress, and no repetition and no nesting goes on for longer than
symbols remain. Behind one round more than that, it makes no difference what is called. -/
theorem productions_predict_and_end (hbound : r.remaining ≤ bound)
    (hrounds : r.remaining < rounds) :
    (∀ o : Optional, Predicts o.first (o.read bound) r) ∧
    ∀ c : Calls,
      (∀ o : Optional, comesTo (o.on (c.unroll rounds) r) = comesTo (o.read bound r)) ∧
      Calls.SameOn r (c.unroll rounds) (.bounded bound) ∧
      comesTo ((c.unroll rounds).document r) = comesTo (document bound r) := by
  refine ⟨fun o => o.read_predicts hbound, fun c => ?_⟩
  have halike := unroll_alike c hbound hrounds (Nat.le_refl _)
  refine ⟨(·.comesTo_unroll c hbound hrounds), halike.sameOn (Nat.le_refl _), ?_⟩
  exact (document_ends halike rfl rfl (Nat.le_refl _)).comesTo_eq .node

/-- A conditional that breaks off behind its condition. -/
theorem productions_predict_and_end_unclosed :
    ∃ r, ofSource "\\IF{a}".toList = .ok r ∧ r.remaining ≤ 4 ∧ r.remaining < 5 ∧
      (∀ o : Optional, Predicts o.first (o.read 4) r) ∧
      ∀ c : Calls,
        (∀ o : Optional, comesTo (o.on (c.unroll 5) r) = comesTo (o.read 4 r)) ∧
        Calls.SameOn r (c.unroll 5) (.bounded 4) ∧
        comesTo ((c.unroll 5).document r) = comesTo (document 4 r) := by
  have hsource : ofSource "\\IF{a}".toList =
      .ok ⟨⟨.word, some "IF", 0, 3⟩, [⟨.openBrace, some "\x7b", 3, 4⟩,
        ⟨.ordinary, some "a", 4, 5⟩, ⟨.closeBrace, some "\x7d", 5, 6⟩], .complete 6, none, 0⟩ := by
    decide +kernel
  exact ⟨_, hsource, by decide, by decide, productions_predict_and_end (by decide) (by decide)⟩

end Grammar

end AlgoBox
