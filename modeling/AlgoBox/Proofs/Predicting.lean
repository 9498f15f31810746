import AlgoBox.Proofs.Calls
import AlgoBox.Proofs.Idle

/-!
# One symbol decides

Whether a production that may be left out applies is told by the current symbol (`Decides`): where
none of its first symbols is ahead it gives nothing and consumes nothing, and where one of them is
it gives something, unless it meets a fault. What the production calls is not asked, so this holds
on top of any calls. A block is decided by its first statement.
-/

namespace AlgoBox

open AlgoBox.Symbol

variable {β γ : Type}

namespace Reader

/-- The current symbol is of one of some kinds and has a text that is wanted with it. -/
def Starts (first : List (Kind × Wanted)) (r : Reader) : Prop :=
  ∃ form ∈ first, r.holds form.1 form.2 = true

/-- The end of the source is no first symbol. -/
theorem not_starts_of_end {first : List (Kind × Wanted)} {r : Reader}
    (hfirst : ∀ form ∈ first, form.1 ≠ .endOfSource) (hr : r.current.kind = .endOfSource) :
    ¬r.Starts first := by
  rintro ⟨form, hform, hholds⟩
  simp only [holds, Bool.and_eq_true, decide_eq_true_eq] at hholds
  exact hfirst form hform (hholds.1.symm.trans hr)

/-- The computation never gives nothing. -/
class Finds (p : ReadM (Option β)) : Prop where
  ne_none : ∀ r s, p r ≠ .ok none s

namespace Finds

instance pure (b : β) : Finds (pure (some b)) where
  ne_none r s h := by cases h

instance bind (p : ReadM γ) (f : γ → ReadM (Option β)) [hf : ∀ c, Finds (f c)] :
    Finds (p >>= f) where
  ne_none r s h := by
    obtain ⟨c, t, -, h⟩ := exists_of_bind_ok h
    exact (hf c).ne_none t s h

instance ite (c : Prop) [Decidable c] (p q : ReadM (Option β)) [Finds p] [Finds q] :
    Finds (if c then p else q) := by
  split <;> infer_instance

end Finds

/-- The computation finds something, or meets a fault, exactly where one of some symbols is ahead.
Where it finds nothing it consumes nothing. -/
structure Decides (first : List (Kind × Wanted)) (p : ReadM (Option β)) : Prop where
  idle : ∀ {r : Reader}, ¬r.Starts first → Idle r none p
  found : ∀ {r s : Reader}, r.Starts first → p r ≠ .ok none s

namespace Decides

variable {first second : List (Kind × Wanted)} {p : ReadM (Option β)}

theorem none : Decides [] (pure none : ReadM (Option β)) where
  idle _ := .pure _
  found := by
    rintro r s ⟨form, hform, -⟩
    cases hform

theorem accept (kind : Kind) (wanted : Wanted) :
    Decides [(kind, wanted)] (Reader.accept kind wanted) where
  idle hr := .accept fun hholds => hr ⟨_, List.mem_singleton_self _, hholds⟩
  found := by
    rintro r s ⟨form, hform, hholds⟩ h
    obtain rfl := List.mem_singleton.1 hform
    rw [accept_eq, if_pos hholds] at h
    obtain ⟨text, t, -, h⟩ := exists_of_bind_ok h
    cases h

/-- What is done where nothing has been found may look at the same symbol again. -/
theorem bind {f : Option β → ReadM (Option γ)} (hp : Decides first p)
    (hnone : Decides second (f Option.none)) (hsome : ∀ b, Finds (f (some b))) :
    Decides (first ++ second) (p >>= f) where
  idle {r} hr := by
    have hfirst : ¬r.Starts first := by
      rintro ⟨form, hform, hholds⟩
      exact hr ⟨form, List.mem_append_left _ hform, hholds⟩
    have hsecond : ¬r.Starts second := by
      rintro ⟨form, hform, hholds⟩
      exact hr ⟨form, List.mem_append_right _ hform, hholds⟩
    exact (hp.idle hfirst).bind (hnone.idle hsecond)
  found := by
    rintro r s ⟨form, hform, hholds⟩ h
    obtain ⟨found, t, hfound, h⟩ := exists_of_bind_ok h
    cases found with
    | some b => exact (hsome b).ne_none t s h
    | none =>
        -- nothing was found, so the reader has not moved
        by_cases hfirst : r.Starts first
        · exact hp.found hfirst hfound
        · have hidle : p r = _ := hp.idle hfirst
          obtain rfl : r = t := by
            rw [hidle] at hfound
            cases hfound
            rfl
          have hmem : form ∈ second :=
            (List.mem_append.1 hform).resolve_left fun hmem => hfirst ⟨form, hmem, hholds⟩
          exact hnone.found ⟨form, hmem, hholds⟩ h

theorem here_bind {f : Nat → ReadM (Option β)} (h : ∀ start, Decides first (f start)) :
    Decides first (Grammar.here >>= f) where
  idle hr := (h _).idle hr
  found {r _} hr hrun := (h r.current.start).found hr hrun

theorem word?_bind (text : String) {p : ReadM (Option β)} [hp : Finds p] :
    Decides [(.word, .only text)]
      (do if ← Grammar.word? text then p else return Option.none) := by
  unfold Grammar.word?
  simp only [bind_assoc, pure_bind]
  exact (accept _ _).bind none fun _ => hp

/-- At the end of the source nothing is found. -/
theorem idle_of_end {r : Reader} (h : Decides first p)
    (hfirst : ∀ form ∈ first, form.1 ≠ .endOfSource) (hr : r.current.kind = .endOfSource) :
    Idle r Option.none p :=
  h.idle (not_starts_of_end hfirst hr)

end Decides

end Reader

/-! ## Productions -/

namespace Grammar

open Reader

variable (c : Calls)

/-- The first symbols of environments. -/
def environmentFirst : List (Kind × Wanted) := [(.word, .only "begin")]

/-- The first symbols of captions. -/
def captionFirst : List (Kind × Wanted) := [(.word, .only "caption")]

/-- The first symbols of conditionals. -/
def conditionalFirst : List (Kind × Wanted) := [(.word, .only "IF")]

/-- The first symbols of loops. -/
def loopFirst : List (Kind × Wanted) := [(.word, .oneOf loopWords)]

/-- The first symbols of functions. -/
def functionFirst : List (Kind × Wanted) := [(.word, .oneOf functionWords)]

/-- The first symbols of some commands. -/
def commandFirst (words : List String) : List (Kind × Wanted) := [(.word, .oneOf words)]

/-- The first symbols of comments. -/
def commentFirst : List (Kind × Wanted) := [(.word, .only "COMMENT")]

/-- The first symbols of calls. -/
def callFirst : List (Kind × Wanted) := [(.word, .only "CALL")]

/-- The first symbols of statements, and so of blocks. -/
def statementFirst : List (Kind × Wanted) :=
  conditionalFirst ++ (loopFirst ++ (functionFirst ++
    (commandFirst statementWords ++ (commentFirst ++ callFirst))))

/-- The symbols that are leaves. -/
def leafFirst : List (Kind × Wanted) := leafForms.map fun form => (form.1, form.2.1)

theorem leafOf?_decides (forms : List (Kind × Wanted × (String → Leaf))) :
    Decides (forms.map fun form => (form.1, form.2.1)) (leafOf? forms) := by
  induction forms with
  | nil => exact .none
  | cons form rest ih => exact (Decides.accept _ _).bind ih fun _ => .pure _

theorem leaf?_decides : Decides leafFirst leaf? :=
  .here_bind fun _ => (leafOf?_decides leafForms).bind .none fun _ => inferInstance

theorem environment?_decides : Decides environmentFirst environment? :=
  .here_bind fun _ => .word?_bind _

theorem caption?_decides : Decides captionFirst c.caption? := .here_bind fun _ => .word?_bind _

theorem conditional?_decides : Decides conditionalFirst c.conditional? :=
  .here_bind fun _ => .word?_bind _

theorem command?_decides (words : List String) :
    Decides (commandFirst words) (c.command? words) :=
  .here_bind fun _ => (Decides.accept _ _).bind .none fun _ => inferInstance

theorem loop?_decides : Decides loopFirst c.loop? :=
  .here_bind fun _ => (Decides.accept _ _).bind .none fun _ => inferInstance

theorem function?_decides : Decides functionFirst c.function? :=
  .here_bind fun _ => (Decides.accept _ _).bind .none fun _ => inferInstance

theorem comment?_decides : Decides commentFirst c.comment? := .here_bind fun _ => .word?_bind _

theorem call?_decides : Decides callFirst c.call? := .here_bind fun _ => .word?_bind _

theorem orElse?_decides {first second : List (Kind × Wanted)}
    {p q : ReadM (Option (Node Span))} (hp : Decides first p) (hq : Decides second q) :
    Decides (first ++ second) (orElse? p q) :=
  hp.bind hq fun _ => .pure _

theorem statement?_decides : Decides statementFirst c.statement? := by
  have hlast := orElse?_decides (comment?_decides c) (call?_decides c)
  have hcommand := orElse?_decides (command?_decides c statementWords) hlast
  have hfunction := orElse?_decides (function?_decides c) hcommand
  have hloop := orElse?_decides (loop?_decides c) hfunction
  exact orElse?_decides (conditional?_decides c) hloop

/-- A block is one as soon as there is a first statement. -/
theorem block?_decides : Decides statementFirst (blockOf? c.statementsRound) where
  idle hr := Idle.get_bind ((((statement?_decides c).idle hr).bind (.pure [])).bind (.pure none))
  found {r s} hr h := by
    obtain ⟨start, t, hstart, h⟩ := exists_of_bind_ok h
    cases hstart
    obtain ⟨nodes, t, hnodes, h⟩ := exists_of_bind_ok h
    cases nodes with
    | cons node rest =>
        obtain ⟨span, u, -, h⟩ := exists_of_bind_ok h
        cases h
    | nil =>
        obtain ⟨found, u, hfound, hnodes⟩ := exists_of_bind_ok hnodes
        cases found with
        | none => exact (statement?_decides c).found hr hfound
        | some node =>
            obtain ⟨rest, v, -, hnodes⟩ := exists_of_bind_ok hnodes
            cases hnodes

end Grammar

end AlgoBox
