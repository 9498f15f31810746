import AlgoBox.Proofs.Idle
import AlgoBox.Proofs.Lookahead
import Mathlib.Data.List.Forall2

/-!
# Readers that correspond

Two readers may stand in front of symbols that differ in their places, or in what
comes far behind them. As long as the current symbols have the same kinds and texts
the productions do the same to both.

A `Correspondence` says which readers, offsets and spans correspond, and when the
first reader has left the part of its source about which the second one is known.
`Alike` is a judgement on two computations, one for each reader: they end in
corresponding results, in corresponding faults, or the first one has left. It also
counts the symbols that remain, so two productions may be compared whose bounds
differ, as long as both suffice. There is a rule for each way of putting
computations together and for each use of a single symbol.
-/

namespace AlgoBox

open AlgoBox.Symbol Reader

variable {β γ : Type}

/-- What of a symbol is not its place. -/
def Symbol.label (s : Symbol) : Kind × Option String := (s.kind, s.text)

namespace Reader

/-- The reader that a computation ends with. -/
def final : Outcome β → Reader
  | .ok _ r | .error _ r => r

/-- Only a symbol that is not the end of the source is used up by being consumed. -/
theorem remaining_consume {r s : Reader} {text : String} (h : r.current.kind ≠ .endOfSource)
    (hconsume : consume r = .ok text s) : s.remaining ≤ r.remaining - 1 := by
  obtain ⟨current, upcoming, ending, lastText, lastEnd⟩ := r
  unfold remaining
  rw [if_neg h]
  cases upcoming with
  | cons next rest =>
      cases hconsume
      dsimp only [List.length_cons]
      split <;> omega
  | nil =>
      cases ending with
      | complete length =>
          cases hconsume
          exact Nat.le_refl _
      | unrecognized offset => cases hconsume

end Reader

/-! ## Correspondences -/

/-- How a run over one source follows a run over another. Spans are compared by what `first`
and `second` say of them, offsets by `Meets` and readers by `Rel`. Corresponding readers
look at the same, and consuming a symbol keeps them in correspondence or fails on both,
unless the first reader leaves the part of its source that the second one follows (`Left`).
Then it is at the end and stays there, and spans and offsets are compared as they are. -/
structure Correspondence where
  Place : Type
  first : Grammar.Span → Place
  second : Grammar.Span → Place
  Meets : Nat → Nat → Prop
  Rel : Reader → Reader → Prop
  Left : Reader → Prop
  label_eq : ∀ {r r'}, Rel r r' → r.current.label = r'.current.label
  start_meets : ∀ {r r'}, Rel r r' → Meets r.current.start r'.current.start
  span_eq : ∀ {r r' start start'}, Rel r r' → Meets start start' →
    first ⟨start, max start r.lastEnd⟩ = second ⟨start', max start' r'.lastEnd⟩
  consume : ∀ {r r'}, Rel r r' → Left (final (Reader.consume r)) ∨
    (∃ text s s', Reader.consume r = .ok text s ∧ Reader.consume r' = .ok text s' ∧ Rel s s') ∨
    ∃ fault fault' s s', Reader.consume r = .error fault s ∧ Reader.consume r' = .error fault' s' ∧
      fault.cause = fault'.cause ∧ Meets fault.offset fault'.offset
  left_end : ∀ {r}, Left r → r.current.kind = .endOfSource ∧ Left (final (Reader.consume r))
  same : ∀ {r}, Left r → first = second ∧ ∀ offset, Meets offset offset

namespace Correspondence

/-- Where the first reader never leaves, nothing is owed of one that has left. -/
theorem left_end_of_never {r : Reader} (h : False) : r.current.kind = .endOfSource ∧ False := h.elim

variable {C : Correspondence}

/-- How results are compared. If the first reader can leave, a result agrees with itself. -/
structure View (C : Correspondence) (β : Type) where
  Agree : β → β → Prop
  same : ∀ {r}, C.Left r → ∀ b, Agree b b

namespace View

/-- Results without a place in them are the same. -/
abbrev exact (C : Correspondence) (β : Type) : C.View β where
  Agree b c := b = c
  same _ _ := rfl

/-- Offsets have to meet. -/
abbrev offset (C : Correspondence) : C.View Nat where
  Agree := C.Meets
  same h := (C.same h).2

/-- Spans are compared by their places. -/
abbrev span (C : Correspondence) : C.View Grammar.Span where
  Agree span span' := C.first span = C.second span'
  same h span := by rw [(C.same h).1]

/-- Nodes are compared with places for spans. -/
abbrev node (C : Correspondence) : C.View (Node Grammar.Span) where
  Agree node node' := node.map C.first = node'.map C.second
  same h node := by rw [(C.same h).1]

/-- Phrases are compared with places for spans. -/
abbrev phrase (C : Correspondence) : C.View (Phrase Grammar.Span) where
  Agree phrase phrase' := phrase.map C.first = phrase'.map C.second
  same h phrase := by rw [(C.same h).1]

/-- Arms are compared with places for spans. -/
abbrev branch (C : Correspondence) : C.View (Branch Grammar.Span) where
  Agree arm arm' := arm.map C.first = arm'.map C.second
  same h arm := by rw [(C.same h).1]

/-- Both find something, or neither does. -/
def option (v : C.View β) : C.View (Option β) where
  Agree := Option.Rel v.Agree
  same h
    | none => .none
    | some b => .some (v.same h b)

/-- Lists are compared item by item. -/
def list (v : C.View β) : C.View (List β) where
  Agree := List.Forall₂ v.Agree
  same h _ := List.forall₂_same.2 fun b _ => v.same h b

/-- Pairs are compared part by part. -/
def pair (v : C.View β) (w : C.View γ) : C.View (β × γ) where
  Agree p p' := v.Agree p.1 p'.1 ∧ w.Agree p.2 p'.2
  same h p := ⟨v.same h p.1, w.same h p.2⟩

theorem phrase_eq {words words' : Phrase Grammar.Span} (h : (phrase C).Agree words words') :
    words.map C.first = words'.map C.second := h

theorem mapAll_eq {nodes nodes' : List (Node Grammar.Span)}
    (h : (node C).list.Agree nodes nodes') :
    Node.mapAll C.first nodes = Node.mapAll C.second nodes' := by
  induction (h : List.Forall₂ (node C).Agree nodes nodes') with
  | nil => rfl
  | cons hnode _ ih => rw [Node.mapAll, Node.mapAll, hnode, ih]

theorem mapBody_eq {body body' : Option (Node Grammar.Span)}
    (h : (node C).option.Agree body body') :
    Node.mapBody C.first body = Node.mapBody C.second body' := by
  cases (h : Option.Rel (node C).Agree body body') with
  | none => rfl
  | some hnode => exact congrArg some hnode

theorem arms_eq {arms arms' : List (Branch Grammar.Span)}
    (h : (branch C).list.Agree arms arms') :
    Branch.mapAll C.first arms = Branch.mapAll C.second arms' := by
  induction (h : List.Forall₂ (branch C).Agree arms arms') with
  | nil => rfl
  | cons harm _ ih => rw [Branch.mapAll, Branch.mapAll, harm, ih]

end View

/-- What two computations, one for each reader, have come to. On the first reader's
side `Post` holds of a result and the reader behind it. -/
inductive Ends (C : Correspondence) (v : C.View β) (Post : β → Reader → Prop) :
    Outcome β → Outcome β → Prop
  | ok {b c : β} {r r' : Reader} : v.Agree b c → C.Rel r r' → Post b r →
      Ends C v Post (.ok b r) (.ok c r')
  | error {fault fault' : Fault} {r r' : Reader} : fault.cause = fault'.cause →
      C.Meets fault.offset fault'.offset → Ends C v Post (.error fault r) (.error fault' r')
  | left {x y : Outcome β} : C.Left (final x) → Ends C v Post x y

/-- Started on readers that correspond, the first with at most `n` symbols
remaining, the computations end in the same way; after a result `b` at most `m b`
symbols remain. A reader that has left never comes back. -/
structure Alike (C : Correspondence) (n : Nat) (m : β → Nat) (v : C.View β)
    (p q : ReadM β) : Prop where
  ends : ∀ {r r'}, C.Rel r r' → r.remaining ≤ n →
    C.Ends v (fun b s => s.remaining ≤ m b) (p r) (q r')
  stays : ∀ {r}, C.Left r → C.Left (final (p r))

/-- The symbols that remain if something found is taken to use up one. -/
def spent (n : Nat) : Option β → Nat
  | none => n
  | some _ => n - 1

/-- The symbols that remain if a list with items is taken to use up one. -/
def spentAll (n : Nat) : List β → Nat
  | [] => n
  | _ :: _ => n - 1

theorem spent_le (n : Nat) (found : Option β) : spent n found ≤ n := by
  cases found with
  | none => exact Nat.le_refl n
  | some b => exact Nat.sub_le n 1

theorem spentAll_le (n : Nat) (l : List β) : spentAll n l ≤ n := by
  cases l with
  | nil => exact Nat.le_refl n
  | cons b rest => exact Nat.sub_le n 1

section Rules

variable {n n' : Nat} {m : β → Nat} {m' : γ → Nat} {v : C.View β} {w : C.View γ}
  {p q : ReadM β} {f g : β → ReadM γ}

theorem stays_bind (hp : ∀ {r}, C.Left r → C.Left (final (p r)))
    (hf : ∀ b {r}, C.Left r → C.Left (final (f b r))) {r : Reader} (hr : C.Left r) :
    C.Left (final ((p >>= f) r)) := by
  have hleft := hp hr
  show C.Left (final (EStateM.bind p f r))
  unfold EStateM.bind
  cases hb : p r with
  | ok b s =>
      rw [hb] at hleft
      exact hf b hleft
  | error fault s =>
      rw [hb] at hleft
      exact hleft

/-- What is done behind results that correspond decides how two computations end. -/
theorem Ends.bind {Post : β → Reader → Prop} {Post' : γ → Reader → Prop} {r r' : Reader}
    (hp : C.Ends v Post (p r) (q r'))
    (hf : ∀ {b c s s'}, v.Agree b c → C.Rel s s' → Post b s → C.Ends w Post' (f b s) (g c s'))
    (hstays : ∀ b {s}, C.Left s → C.Left (final (f b s))) :
    C.Ends w Post' ((p >>= f) r) ((q >>= g) r') := by
  show C.Ends w Post' (EStateM.bind p f r) (EStateM.bind q g r')
  unfold EStateM.bind
  generalize hx : p r = x at hp
  generalize hy : q r' = y at hp
  cases hp with
  | ok hagree hrel hpost => exact hf hagree hrel hpost
  | error hcause hmeets => exact .error hcause hmeets
  | left hleft =>
      refine .left ?_
      cases x with
      | ok b s => exact hstays b hleft
      | error fault s => exact hleft

namespace Alike

theorem mono (hp : C.Alike n' m v p q) (hn : n ≤ n') {k : β → Nat} (hk : ∀ b, m b ≤ k b) :
    C.Alike n k v p q where
  ends {r r'} hr hle := by
    have hends := hp.ends hr (Nat.le_trans hle hn)
    generalize p r = x at *
    generalize q r' = y at *
    cases hends with
    | ok hagree hrel hpost => exact .ok hagree hrel (Nat.le_trans hpost (hk _))
    | error hcause hmeets => exact .error hcause hmeets
    | left hleft => exact .left hleft
  stays := hp.stays

theorem pure {b c : β} (h : v.Agree b c) (hn : n ≤ m b) : C.Alike n m v (pure b) (pure c) where
  ends hr hle := .ok h hr (Nat.le_trans hle hn)
  stays hr := hr

theorem throw {cause : Fault.Cause} {offset offset' : Nat} (h : C.Meets offset offset') :
    C.Alike n m v (throw ⟨cause, offset⟩) (throw ⟨cause, offset'⟩) where
  ends _ _ := .error rfl h
  stays hr := hr

theorem bind (hp : C.Alike n m v p q)
    (hf : ∀ b c, v.Agree b c → C.Alike (m b) m' w (f b) (g c)) :
    C.Alike n m' w (p >>= f) (q >>= g) where
  ends hr hle :=
    (hp.ends hr hle).bind (fun hagree hrel hpost => (hf _ _ hagree).ends hrel hpost)
      fun b _ hs => (hf b b (v.same hs b)).stays hs
  stays hr := stays_bind hp.stays (fun b _ hs => (hf b b (v.same hs b)).stays hs) hr

/-- After a result in which there is no place the two go on from the same one. -/
theorem bind_same (hp : C.Alike n m (.exact C β) p q)
    (hf : ∀ b, C.Alike (m b) m' w (f b) (g b)) : C.Alike n m' w (p >>= f) (q >>= g) := by
  refine hp.bind ?_
  rintro b _ rfl
  exact hf b

/-- Both find something, or neither does. -/
theorem bind_found {m : Option β → Nat} {p q : ReadM (Option β)} {f g : Option β → ReadM γ}
    (hp : C.Alike n m v.option p q) (hnone : C.Alike (m none) m' w (f none) (g none))
    (hsome : ∀ b c, v.Agree b c → C.Alike (m (some b)) m' w (f (some b)) (g (some c))) :
    C.Alike n m' w (p >>= f) (q >>= g) := by
  refine hp.bind fun o o' hagree => ?_
  cases (hagree : Option.Rel v.Agree o o') with
  | none => exact hnone
  | some hagree => exact hsome _ _ hagree

theorem ite (c : Prop) [Decidable c] {p' q' : ReadM β} (hp : C.Alike n m v p q)
    (hq : C.Alike n m v p' q') : C.Alike n m v (if c then p else p') (if c then q else q') := by
  by_cases hc : c
  · rw [if_pos hc, if_pos hc]
    exact hp
  · rw [if_neg hc, if_neg hc]
    exact hq

/-- A look at the readers after which only their places are used. -/
theorem get_bind {f g : Reader → ReadM γ}
    (h : ∀ r r', C.Rel r r' → C.Alike n m' w (f r) (g r'))
    (hstays : ∀ r, C.Left r → C.Left (final (f r r))) :
    C.Alike n m' w (get >>= f) (get >>= g) where
  ends hr hle := (h _ _ hr).ends hr hle
  stays hr := hstays _ hr

/-- Where no symbol remains, two computations that have nothing to do are alike. -/
theorem idle {b c : β} (h : v.Agree b c)
    (hp : ∀ r, r.current.kind = .endOfSource → Idle r b p)
    (hq : ∀ r, r.current.kind = .endOfSource → Idle r c q) : C.Alike 0 m v p q where
  ends {r r'} hr hle := by
    have hkind : r.current.kind = .endOfSource := by
      unfold remaining at hle
      by_contra hne
      rw [if_neg hne] at hle
      omega
    have hkind' : r'.current.kind = .endOfSource :=
      (congrArg Prod.fst (C.label_eq hr)).symm.trans hkind
    rw [hp r hkind, hq r' hkind']
    exact .ok h hr (Nat.le_trans hle (Nat.zero_le _))
  stays {r} hr := by
    rw [hp r (C.left_end hr).1]
    exact hr

end Alike

end Rules

/-! ## Single symbols -/

section Symbols

variable {n : Nat} {m : β → Nat} {v : C.View β} {r r' : Reader} {kind : Kind}

theorem consume_ends {Post : String → Reader → Prop} (hr : C.Rel r r')
    (hpost : ∀ text s, Reader.consume r = .ok text s → Post text s) :
    C.Ends (.exact C String) Post (Reader.consume r) (Reader.consume r') := by
  rcases C.consume hr with hleft | ⟨text, s, s', hs, hs', hrel⟩ |
    ⟨fault, fault', s, s', hs, hs', hcause, hmeets⟩
  · exact .left hleft
  · have hok := hpost text s hs
    rw [hs, hs']
    exact .ok rfl hrel hok
  · rw [hs, hs']
    exact .error hcause hmeets

/-- The symbol decides whether it is consumed, and its place goes into the fault
only. -/
theorem expect_ends {Post : String → Reader → Prop} (wanted : Wanted) (hr : C.Rel r r')
    (hpost : ∀ text s, r.current.kind = kind → Reader.consume r = .ok text s → Post text s) :
    C.Ends (.exact C String) Post (expect kind wanted r) (expect kind wanted r') := by
  have hkind : r.current.kind = r'.current.kind := congrArg Prod.fst (C.label_eq hr)
  have htext : r.current.text = r'.current.text := congrArg Prod.snd (C.label_eq hr)
  have hrun : ∀ r : Reader, expect kind wanted r =
      if r.current.kind ≠ kind then .error ⟨.wrongKind kind r.current.kind, r.current.start⟩ r
      else if !wanted.admits r.current.text then
        .error ⟨.wrongText wanted r.current.text, r.current.start⟩ r
      else Reader.consume r := by
    intro r
    show (if r.current.kind ≠ kind then _ else _ : ReadM String) r = _
    split
    · rfl
    · split <;> rfl
  rw [hrun r, hrun r', ← hkind, ← htext]
  by_cases hne : r.current.kind ≠ kind
  · rw [if_pos hne, if_pos hne]
    exact .error rfl (C.start_meets hr)
  · rw [if_neg hne, if_neg hne]
    cases wanted.admits r.current.text with
    | false => exact .error rfl (C.start_meets hr)
    | true => exact consume_ends hr fun text s hs => hpost text s (not_not.1 hne) hs

theorem stays_expect (kind : Kind) (wanted : Wanted) (hr : C.Left r) :
    C.Left (final (expect kind wanted r)) := by
  show C.Left (final ((if r.current.kind ≠ kind then _ else _ : ReadM String) r))
  split
  · exact hr
  · split
    · exact hr
    · exact (C.left_end hr).2

theorem stays_accept (kind : Kind) (wanted : Wanted) (hr : C.Left r) :
    C.Left (final (accept kind wanted r)) := by
  show C.Left (final ((if r.holds kind wanted then _ else _ : ReadM (Option String)) r))
  split
  · refine stays_bind (fun hs => (C.left_end hs).2) ?_ hr
    intro _ _ hs
    exact hs
  · exact hr

namespace Alike

theorem expect (hkind : kind ≠ .endOfSource) (wanted : Wanted) :
    C.Alike n (fun _ => n) (.exact C String) (Reader.expect kind wanted)
      (Reader.expect kind wanted) where
  ends hr hle := expect_ends wanted hr fun _ _ hcurrent hs =>
    Nat.le_trans (remaining_consume (hcurrent ▸ hkind) hs) (Nat.le_trans (Nat.sub_le _ _) hle)
  stays := stays_expect kind wanted

theorem accept (hkind : kind ≠ .endOfSource) (wanted : Wanted) :
    C.Alike n (spent n) (.exact C (Option String)) (Reader.accept kind wanted)
      (Reader.accept kind wanted) where
  ends {r r'} hr hle := by
    have hholds : r.holds kind wanted = r'.holds kind wanted := by
      have hlabel := C.label_eq hr
      simp only [label, Prod.mk.injEq] at hlabel
      unfold holds
      rw [hlabel.1, hlabel.2]
    show C.Ends _ _
      ((if r.holds kind wanted then (do return some (← Reader.consume)) else return none :
        ReadM (Option String)) r)
      ((if r'.holds kind wanted then (do return some (← Reader.consume)) else return none :
        ReadM (Option String)) r')
    rw [← hholds]
    cases hfits : r.holds kind wanted with
    | false => exact .ok rfl hr hle
    | true =>
        have hcurrent : r.current.kind ≠ .endOfSource := by
          simp only [holds, Bool.and_eq_true, decide_eq_true_eq] at hfits
          exact hfits.1 ▸ hkind
        have hspent : ∀ text s, Reader.consume r = .ok text s → s.remaining ≤ n - 1 := fun _ _ hs =>
          Nat.le_trans (remaining_consume hcurrent hs) (Nat.sub_le_sub_right hle 1)
        refine (consume_ends hr hspent).bind ?_ fun _ _ hs => hs
        rintro text _ s s' rfl hrel hpost
        exact .ok rfl hrel hpost
  stays := stays_accept kind wanted

end Alike

end Symbols

end Correspondence

end AlgoBox
