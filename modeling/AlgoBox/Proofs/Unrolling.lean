import AlgoBox.Proofs.Predicting

/-!
# Unrolling the productions

`Calls.Lasts` is what calls under a bound and calls that have been unrolled share: for a number of
rounds they are what the grammar says, and behind these rounds they give nothing at the end of a
source. Nothing else is known of what stands behind the rounds: in unrolled calls the innermost
ones are arbitrary, since one round in front of any calls stops at the end of a source.
-/

namespace AlgoBox.Grammar

open Reader

namespace Calls

variable (c : Calls)

/-! ## Where nothing remains -/

/-- At the end of a source the calls consume nothing and give nothing. -/
structure Stops : Prop where
  items : ∀ r : Reader, r.current.kind = .endOfSource → Idle r [] c.items
  laterArms : ∀ r : Reader, r.current.kind = .endOfSource → Idle r [] c.laterArms
  statements : ∀ r : Reader, r.current.kind = .endOfSource → Idle r [] c.statements
  sections : ∀ r : Reader, r.current.kind = .endOfSource → Idle r [] c.sections
  parts : ∀ r : Reader, r.current.kind = .endOfSource → Idle r [] c.parts
  environments : ∀ r : Reader, r.current.kind = .endOfSource → Idle r [] c.environments

section Stops

variable {r : Reader} (hr : r.current.kind = .endOfSource)
include hr

theorem idle_itemsRound : Idle r [] c.itemsRound := by
  refine (leaf?_decides.idle_of_end (by decide) hr).bind ?_
  exact ((Decides.accept .openBrace .any).idle_of_end (by decide) hr).bind (.pure [])

theorem idle_laterArmsRound : Idle r [] c.laterArmsRound := by
  have haccept := (Decides.accept .word (.only "ELIF")).idle_of_end (by decide) hr
  exact Idle.get_bind ((haccept.bind (.pure false)).bind (.pure []))

theorem idle_statementsRound : Idle r [] c.statementsRound :=
  ((statement?_decides c).idle_of_end (by decide) hr).bind (.pure [])

/-- Sections stop where the statements that they begin with do. -/
theorem idle_sectionsRound (h : Idle r [] c.statements) : Idle r [] c.sectionsRound := by
  have hcommand := (command?_decides c preconditionWords).idle_of_end (by decide) hr
  have hblock : Idle r none c.block? := Idle.get_bind (h.bind (.pure none))
  exact (hcommand.bind hblock).bind (.pure [])

theorem idle_partsRound : Idle r [] c.partsRound := by
  refine (environment?_decides.idle_of_end (by decide) hr).bind ?_
  exact ((caption?_decides c).idle_of_end (by decide) hr).bind (.pure [])

theorem idle_environmentsRound : Idle r [] c.environmentsRound :=
  (environment?_decides.idle_of_end (by decide) hr).bind (.pure [])

end Stops

theorem stops_next : c.next.Stops where
  items _ := c.idle_itemsRound
  laterArms _ := c.idle_laterArmsRound
  statements _ := c.idle_statementsRound
  sections _ hr := idle_sectionsRound _ hr (c.idle_statementsRound hr)
  parts _ := c.idle_partsRound
  environments _ := c.idle_environmentsRound

/-- A bound that has run out makes no difference where nothing remains. -/
theorem stops_boundedBy (bound arms sections : Nat) : (boundedBy bound arms sections).Stops where
  items _ hr := by
    cases bound with
    | zero => exact .pure []
    | succ bound => exact (bounded bound).idle_itemsRound hr
  laterArms _ hr := by
    cases arms with
    | zero => exact .pure []
    | succ arms => exact (boundedBy bound arms sections).idle_laterArmsRound hr
  statements _ hr := by
    cases bound with
    | zero => exact .pure []
    | succ bound => exact (bounded bound).idle_statementsRound hr
  sections _ hr := by
    cases sections with
    | zero => exact .pure []
    | succ sections =>
        show Idle _ [] (Grammar.sections (sections + 1))
        rw [sections_succ sections 0]
        exact idle_sectionsRound _ hr ((bounded sections).idle_statementsRound hr)
  parts _ hr := by
    cases bound with
    | zero => exact .pure []
    | succ bound => exact (bounded bound).idle_partsRound hr
  environments _ hr := by
    cases bound with
    | zero => exact .pure []
    | succ bound => exact (bounded bound).idle_environmentsRound hr

theorem idle_environments {r : Reader} (hr : r.current.kind = .endOfSource) (bound : Nat) :
    Idle r [] (Grammar.environments bound) :=
  (stops_boundedBy bound bound bound).environments r hr

/-! ## Calls that last -/

/-- For a number of rounds the calls are rounds in front of other calls, and behind these rounds
they give nothing where nothing remains. -/
def Lasts : Nat → Calls → Prop
  | 0, c => c.Stops
  | rounds + 1, c =>
    (∃ d, Lasts rounds d ∧ c.items = d.itemsRound) ∧
    (∃ d, Lasts rounds d ∧ c.laterArms = d.laterArmsRound) ∧
    (∃ d, Lasts rounds d ∧ c.statements = d.statementsRound) ∧
    (∃ d e, Lasts rounds d ∧ Lasts rounds e ∧
      c.sections = { d with statements := e.statementsRound }.sectionsRound) ∧
    (∃ d, Lasts rounds d ∧ c.parts = d.partsRound) ∧
    ∃ d, Lasts rounds d ∧ c.environments = d.environmentsRound

variable {c}

/-- One more round in front of calls that last. -/
theorem Lasts.next {rounds : Nat} (h : Lasts rounds c) : Lasts (rounds + 1) c.next :=
  ⟨⟨c, h, rfl⟩, ⟨c, h, rfl⟩, ⟨c, h, rfl⟩, ⟨c, c, h, h, rfl⟩, ⟨c, h, rfl⟩, c, h, rfl⟩

/-- Unrolled calls last for all rounds but the innermost one, behind which anything may be
called. -/
theorem lasts_unroll (c : Calls) {rounds more : Nat} (h : rounds < more) :
    Lasts rounds (c.unroll more) := by
  obtain ⟨k, rfl⟩ : ∃ k, more = k + 1 := ⟨more - 1, by omega⟩
  induction rounds generalizing k with
  | zero => exact stops_next _
  | succ rounds ih =>
      obtain ⟨k, rfl⟩ : ∃ j, k = j + 1 := ⟨k - 1, by omega⟩
      exact (ih k (by omega)).next

theorem lasts_boundedBy {rounds bound arms sections : Nat} (hbound : rounds ≤ bound)
    (harms : rounds ≤ arms) (hsections : rounds ≤ sections) :
    Lasts rounds (boundedBy bound arms sections) := by
  induction rounds generalizing bound arms sections with
  | zero => exact stops_boundedBy _ _ _
  | succ rounds ih =>
      obtain ⟨bound, rfl⟩ : ∃ k, bound = k + 1 := ⟨bound - 1, by omega⟩
      obtain ⟨arms, rfl⟩ : ∃ k, arms = k + 1 := ⟨arms - 1, by omega⟩
      obtain ⟨sections, rfl⟩ : ∃ k, sections = k + 1 := ⟨sections - 1, by omega⟩
      have hless : Lasts rounds (bounded bound) := ih (by omega) (by omega) (by omega)
      refine ⟨⟨_, hless, items_succ _⟩, ⟨_, ?_, laterArms_succ _ arms (sections + 1)⟩,
        ⟨_, hless, statements_succ _⟩, ⟨_, bounded sections, ?_, ?_, sections_succ _ arms⟩,
        ⟨_, hless, parts_succ _⟩, _, hless, environments_succ _⟩
      · exact ih (by omega) (by omega) (by omega)
      · exact ih (by omega) (by omega) (by omega)
      · exact ih (by omega) (by omega) (by omega)

theorem lasts_bounded {rounds bound : Nat} (h : rounds ≤ bound) : Lasts rounds (bounded bound) :=
  lasts_boundedBy h h h

end Calls

end AlgoBox.Grammar
