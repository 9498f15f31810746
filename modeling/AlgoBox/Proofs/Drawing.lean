import AlgoBox.Proofs.Derivation
import AlgoBox.Proofs.Layout

/-!
# Rendering draws the layout

What a document is rendered to is the layout of its tree: when rendering comes to
its end, the fragments on the page are those of the boxes, with neighbouring text
joined (`Document.rendering_fragments`).

`Ensures` is a triple without a promise to succeed. What a page says about itself
besides its fragments (`Status`) follows the sheet that has been drawn on it
(`Page.At`): the line is open when the sheet has an open row, and the count is the
sheet's. With that, content is drawn piece by piece (`Emits`), statements mark by
mark (`Draws`), and each node by following its definition.
-/

namespace AlgoBox

open Html Page Grammar

variable {α β γ : Type}

/-! ## Triples -/

/-- Where a computation comes to its end on a page with a property, its result and
the page that it leaves have another one. -/
def Html.Ensures (P : Page → Prop) (p : RenderM β) (Q : β → Page → Prop) : Prop :=
  ∀ page b page', P page → p page = .ok b page' → Q b page'

namespace Html.Ensures

variable {P P' : Page → Prop} {p : RenderM β} {Q Q' : β → Page → Prop}

theorem pure {b : β} (h : ∀ page, P page → Q b page) : Ensures P (pure b) Q := by
  intro page b page' hpage hrun
  cases hrun
  exact h page hpage

theorem get {Q : Page → Page → Prop} (h : ∀ page, P page → Q page page) : Ensures P get Q := by
  intro page b page' hpage hrun
  cases hrun
  exact h page hpage

theorem modify {f : Page → Page} {Q : Unit → Page → Prop} (h : ∀ page, P page → Q () (f page)) :
    Ensures P (modify f) Q := by
  intro page b page' hpage hrun
  cases hrun
  exact h page hpage

theorem throw {fault : RenderFault} : Ensures P (throw fault) Q := by
  intro page b page' _ hrun
  cases hrun

theorem bind {f : β → RenderM γ} {R : γ → Page → Prop} (hp : Ensures P p Q)
    (hf : ∀ b, Ensures (Q b) (f b) R) : Ensures P (p >>= f) R := by
  intro page c page'' hpage hrun
  change EStateM.bind p f page = _ at hrun
  unfold EStateM.bind at hrun
  cases hb : p page with
  | ok b page' =>
      rw [hb] at hrun
      exact hf b page' c page'' (hp page b page' hpage hb) hrun
  | error fault page' =>
      rw [hb] at hrun
      cases hrun

theorem ite {c : Prop} [Decidable c] {q : RenderM β} (hp : c → Ensures P p Q)
    (hq : ¬c → Ensures P q Q) : Ensures P (if c then p else q) Q := by
  split
  · exact hp ‹c›
  · exact hq ‹¬c›

theorem imp (h : Ensures P p Q) (hP : ∀ page, P' page → P page)
    (hQ : ∀ b page, Q b page → Q' b page) : Ensures P' p Q' := by
  intro page b page' hpage hrun
  exact hQ b page' (h page b page' (hP page hpage) hrun)

theorem weaken (h : Ensures P p Q) (hQ : ∀ b page, Q b page → Q' b page) : Ensures P p Q' :=
  h.imp (fun _ => id) hQ

/-- What is known of no page in particular may be used. -/
theorem assume {c : Prop} (h : c → Ensures P p Q) : Ensures (fun page => P page ∧ c) p Q :=
  fun page b page' hpage => h hpage.2 page b page' hpage.1

theorem choose {ι : Type} {P : ι → Page → Prop} (h : ∀ i, Ensures (P i) p Q) :
    Ensures (fun page => ∃ i, P i page) p Q :=
  fun page b page' ⟨i, hpage⟩ => h i page b page' hpage

end Html.Ensures

/-! ## What a page shows -/

/-- What a page says about itself besides its fragments. -/
structure Html.Status where
  depth : Nat
  lineOpen : Bool
  lineCount : Nat
  captionCount : Nat

namespace Html.Page

/-- What the page says about itself besides its fragments. -/
def status (page : Page) : Status :=
  ⟨page.depth, page.lineOpen, page.lineCount, page.captionCount⟩

/-- The fragments are on the page, and no text is held back. -/
structure Written (fragments : List Fragment) (status : Status) (page : Page) : Prop where
  fragments : page.fragments.toList = merged fragments
  pending : page.pending = #[]
  status : page.status = status

/-- The fragments are on the page, text at their end possibly held back. -/
structure Shows (fragments : List Fragment) (status : Status) (page : Page) : Prop where
  held : ∃ front, fragments = front ++ page.pending.toList.map .text ∧ ¬EndsText front ∧
    page.fragments.toList = merged front
  status : page.status = status

variable {fragments : List Fragment} {status : Status} {page : Page}

theorem Written.shows (h : Written fragments status page) (hends : ¬EndsText fragments) :
    Shows fragments status page := by
  refine ⟨⟨fragments, ?_, hends, h.fragments⟩, h.status⟩
  rw [h.pending]
  exact (List.append_nil fragments).symm

/-- Only text is held back. -/
theorem Shows.written (h : Shows fragments status page) (hends : ¬EndsText fragments) :
    Written fragments status page := by
  obtain ⟨⟨front, rfl, -, hfragments⟩, hstatus⟩ := h
  have hpending : page.pending = #[] := by
    by_contra hne
    rcases List.eq_nil_or_concat page.pending.toList with hnil | ⟨texts, t, hlast⟩
    · exact hne (Array.toList_eq_nil_iff.1 hnil)
    · apply hends
      rw [hlast, List.concat_eq_append, List.map_append, ← List.append_assoc]
      exact (endsText_append_singleton _ (.text t)).2 trivial
  refine ⟨?_, hpending, hstatus⟩
  rw [hfragments, hpending]
  exact congrArg merged (List.append_nil front).symm

theorem ensures_emit {f : Fragment} (hf : ¬f.IsText) :
    Ensures (Written fragments status) (emit f)
      (fun _ => Written (fragments ++ [f]) status) := by
  refine Ensures.modify fun page h => ⟨?_, h.pending, h.status⟩
  rw [merged_append_singleton hf, ← h.fragments]
  exact Array.toList_push

theorem ensures_modify {f : Page → Page} (g : Status → Status)
    (hf : ∀ page, (f page).fragments = page.fragments ∧ (f page).pending = page.pending ∧
      (f page).status = g page.status) :
    Ensures (Written fragments status) (modify f) (fun _ => Written fragments (g status)) := by
  refine Ensures.modify fun page h => ?_
  obtain ⟨hfragments, hpending, hstatus⟩ := hf page
  exact ⟨hfragments ▸ h.fragments, hpending ▸ h.pending, by rw [hstatus, h.status]⟩

theorem ensures_releaseText :
    Ensures (Shows fragments status) releaseText (fun _ => Written fragments status) := by
  unfold releaseText
  refine Ensures.bind (Ensures.get (Q := fun b page => b = page ∧ Shows fragments status page)
    fun page h => ⟨rfl, h⟩) fun b => ?_
  rintro page u page' ⟨rfl, ⟨front, hfront, hends, hfragments⟩, hstatus⟩ hrun
  cases htexts : b.pending.toList with
  | nil =>
      have hpending : b.pending = #[] := Array.toList_eq_nil_iff.1 htexts
      rw [hpending] at hrun
      cases hrun
      refine ⟨?_, hpending, hstatus⟩
      rw [hfragments, hfront, htexts]
      exact congrArg merged (List.append_nil front).symm
  | cons t texts =>
      have hpending : b.pending.isEmpty = false := by
        rw [← Array.isEmpty_toList, htexts]
        rfl
      rw [hpending] at hrun
      cases hrun
      refine ⟨?_, rfl, hstatus⟩
      rw [hfront, merged_append fun h => absurd h hends, htexts, merged_texts, ← hfragments,
        ← htexts]
      exact Array.toList_push

end Html.Page

/-! ## Pieces of a line -/

/-- A computation puts fragments on the page and does nothing else. -/
def Html.Emits (p : RenderM β) (out : List Fragment) : Prop :=
  ∀ fragments status,
    Ensures (Shows fragments status) p (fun _ => Shows (fragments ++ out) status)

namespace Html.Emits

theorem bind {p : RenderM β} {f : β → RenderM γ} {out out' : List Fragment} (hp : Emits p out)
    (hf : ∀ b, Emits (f b) out') : Emits (p >>= f) (out ++ out') := by
  intro fragments status
  refine (hp fragments status).bind fun b => ?_
  rw [← List.append_assoc]
  exact hf b (fragments ++ out) status

theorem holdText (text : String) : Emits (holdText text) [.text text] := by
  intro fragments status
  refine Ensures.modify fun page ⟨⟨front, hfront, hends, hfragments⟩, hstatus⟩ =>
    ⟨⟨front, ?_, hends, hfragments⟩, hstatus⟩
  rw [hfront, Array.toList_push, List.map_append, List.append_assoc]
  rfl

theorem write {f : Fragment} (hf : ¬f.IsText) : Emits (write f) [f] := by
  intro fragments status
  refine ensures_releaseText.bind fun _ => (ensures_emit hf).weaken fun _ page h => ?_
  exact h.shows fun hends => hf ((endsText_append_singleton fragments f).1 hends)

theorem writeKeyword (word : String) : Emits (writeKeyword word) [.keyword word] := write id

end Html.Emits

/-- Markup of an option value, where there is one, is its escaped text. -/
theorem Html.ensures_escapeValue (value : Value) (P : Page → Prop) :
    Ensures P (escapeValue value) (fun s page => s = escapedValue value ∧ P page) := by
  unfold escapeValue escapedValue
  refine Ensures.ite (fun htrue => ?_) fun hfalse => ?_
  · rw [if_pos htrue]
    cases value with
    | text s => exact Ensures.pure fun page h => ⟨rfl, h⟩
    | _ => exact Ensures.throw
  · rw [if_neg hfalse]
    exact Ensures.pure fun page h => ⟨rfl, h⟩

theorem Html.Emits.escapeValue_bind {value : Value} {f : String → RenderM β} {out : List Fragment}
    (hf : Emits (f (escapedValue value)) out) : Emits (escapeValue value >>= f) out := by
  intro fragments status
  refine (ensures_escapeValue value (Shows fragments status)).bind fun s => ?_
  rintro page b page' ⟨rfl, h⟩ hrun
  exact hf fragments status page b page' h hrun

theorem Html.ensures_closeSpans (count : Nat) (fragments : List Fragment) (status : Status) :
    Ensures (Written fragments status) (closeSpans count)
      (fun _ => Written (fragments ++ List.replicate count .closeSpan) status) := by
  induction count generalizing fragments with
  | zero => exact Ensures.pure fun page h => by simpa using h
  | succ count ih =>
      refine (ensures_emit id).bind fun _ => (ih (fragments ++ [.closeSpan])).weaken ?_
      intro _ page h
      rwa [List.append_assoc] at h

section Phrases

variable {setup : Setup}

theorem Leaf.emits {item : Leaf} (h : item.switch? = none) :
    Emits (item.render setup) (Inline.fragmentsAll (item.inlines setup)) := by
  cases item with
  | ordinary content => exact Emits.holdText _
  | math body => exact Emits.write id
  | bool keyword => exact Emits.writeKeyword _
  | special escape =>
      unfold Leaf.render Leaf.inlines
      dsimp only
      cases escapeMarkup? escape with
      | some markup => exact Emits.holdText markup
      | none => exact fun _ _ => Ensures.throw
  | size => cases h
  | font => cases h

/-- Rendering some items leaves the stretches open that their switches have opened,
and tells how many. -/
def Owes (setup : Setup) (items : List (Node α)) : Prop :=
  ∀ fragments status,
    Ensures (Shows fragments status) (Node.renderItems setup items) fun count page =>
      ∃ shown, Shows shown status page ∧
        shown ++ List.replicate count .closeSpan =
          fragments ++ Inline.fragmentsAll (Node.inlines setup items)

theorem Owes.nil : Owes setup ([] : List (Node α)) := by
  intro fragments status
  exact Ensures.pure fun page h => ⟨fragments, h, rfl⟩

theorem Owes.leaf {loc : α} {item : Leaf} {rest : List (Node α)} (hrest : Owes setup rest) :
    Owes setup (.leaf loc item :: rest) := by
  intro fragments status
  unfold Node.renderItems Node.inlines
  cases hswitch : item.switch? with
  | some span =>
      refine (Emits.write (f := .openSpan span) id fragments status).bind fun _ => ?_
      refine (hrest (fragments ++ [.openSpan span]) status).bind fun count => ?_
      refine Ensures.pure fun page ⟨shown, hshown, hcount⟩ => ⟨shown, hshown, ?_⟩
      -- the stretch is closed behind those of the rest
      rw [List.replicate_succ', ← List.append_assoc, hcount]
      simp only [Inline.fragmentsAll_singleton, Inline.fragments, List.append_assoc,
        List.cons_append, List.nil_append]
  | none =>
      refine (Leaf.emits hswitch fragments status).bind fun _ => ?_
      refine (hrest (fragments ++ Inline.fragmentsAll (item.inlines setup)) status).weaken ?_
      rintro count page ⟨shown, hshown, hcount⟩
      refine ⟨shown, hshown, ?_⟩
      rw [hcount, Inline.fragmentsAll_append, List.append_assoc]

theorem Owes.text {words : Phrase α} {rest : List (Node α)}
    (hwords : Emits (words.render setup) (words.inline setup).fragments)
    (hrest : Owes setup rest) : Owes setup (.text words :: rest) := by
  intro fragments status
  refine (hwords fragments status).bind fun _ => ?_
  refine (hrest (fragments ++ (words.inline setup).fragments) status).weaken ?_
  rintro count page ⟨shown, hshown, hcount⟩
  refine ⟨shown, hshown, ?_⟩
  rw [hcount, List.append_assoc]
  rfl

theorem Owes.all {items : List (Node α)}
    (h : ∀ item ∈ items, ∀ rest, Owes setup rest → Owes setup (item :: rest)) :
    Owes setup items := by
  induction items with
  | nil => exact .nil
  | cons item rest ih =>
      obtain ⟨hitem, hrest⟩ := List.forall_mem_cons.1 h
      exact hitem rest (ih hrest)

/-- At the end of a phrase everything that is still open in it is closed. -/
theorem Owes.phrase {loc : α} {items : List (Node α)} (h : Owes setup items) :
    Emits ((Phrase.mk loc items).render setup) ((Phrase.mk loc items).inline setup).fragments := by
  intro fragments status
  unfold Phrase.render
  refine (Emits.write (f := .openSpan .phrase) id fragments status).bind fun _ => ?_
  refine (h (fragments ++ [.openSpan .phrase]) status).bind fun count => ?_
  refine Ensures.choose fun shown => Ensures.assume fun hcount => ?_
  refine ensures_releaseText.bind fun _ => (ensures_closeSpans count shown status).bind fun _ =>
    (ensures_emit (f := .closeSpan) id).weaken fun _ page h => ?_
  rw [hcount] at h
  have hends := (endsText_append_singleton
    (fragments ++ [.openSpan .phrase] ++ Inline.fragmentsAll (Node.inlines setup items))
    .closeSpan).not.2 id
  have hshows := h.shows hends
  rw [List.append_assoc, List.append_assoc] at hshows
  exact hshows

end Phrases

theorem Item.owes {form : Form} (setup : Setup) {node : Node α} : Item form node →
    ∀ rest, Owes setup rest → Owes setup (node :: rest)
  | .leaf .., _, hrest => .leaf hrest
  | .group hitems _, _, hrest => by
    have hall := Owes.all fun item hitem => (hitems item hitem).owes setup
    exact .text hall.phrase hrest

theorem Words.emits {form : Form} {words : Phrase α} (h : Words form words) (setup : Setup) :
    Emits (words.render setup) (words.inline setup).fragments := by
  obtain ⟨hitems, -⟩ := h
  have hall := Owes.all fun item hitem => (hitems item hitem).owes setup
  exact hall.phrase

/-! ## Sheets on a page -/

/-- What a page says about itself when a sheet is drawn on it. -/
def Html.Sheet.status (depth captions : Nat) (s : Sheet) : Status :=
  ⟨depth, s.row.isSome, s.count, captions⟩

/-- A sheet is drawn on the page behind some fragments, inside a number of blocks
and behind a number of captions. -/
def Html.Page.At (before : List Fragment) (depth captions : Nat) (s : Sheet) : Page → Prop :=
  Shows (before ++ s.fragments) (s.status depth captions)

/-- A sheet without an open line is drawn on the page, and no text is held back. -/
def Html.Page.AtEnd (before : List Fragment) (depth captions : Nat) (s : Sheet) : Page → Prop :=
  Written (before ++ Box.fragmentsAll s.boxes) ⟨depth, false, s.count, captions⟩

theorem Html.ensures_get_bind {P : Page → Prop} {f : Page → RenderM β} {Q : β → Page → Prop}
    {status : Status} (hstatus : ∀ page, P page → page.status = status)
    (hf : ∀ page : Page, page.status = status → Ensures P (f page) Q) :
    Ensures P (get >>= f) Q := by
  refine Ensures.bind (Ensures.get (Q := fun page page' => P page' ∧ page.status = status)
    fun page h => ⟨h, hstatus page h⟩) fun page => ?_
  exact Ensures.assume fun h => hf page h

section Sheets

variable {options : Options} {before : List Fragment} {depth captions : Nat} {s : Sheet}

/-- Where no line is open nothing is held back. -/
theorem Html.Page.At.atEnd {page : Page} (h : At before depth captions s page)
    (hbefore : ¬EndsText before) (hrow : s.row = none) : AtEnd before depth captions s page := by
  unfold At Sheet.status at h
  rw [Sheet.fragments_eq_of_row hrow, hrow] at h
  exact h.written (Box.not_endsText_fragmentsAll hbefore s.boxes)

theorem Html.Page.AtEnd.at {page : Page} (h : AtEnd before depth captions s page)
    (hbefore : ¬EndsText before) (hrow : s.row = none) : At before depth captions s page := by
  unfold At Sheet.status
  rw [Sheet.fragments_eq_of_row hrow, hrow]
  exact h.shows (Box.not_endsText_fragmentsAll hbefore s.boxes)

theorem Html.ensures_closeLine (hbefore : ¬EndsText before) :
    Ensures (At before depth captions s) closeLine (fun _ => AtEnd before depth captions s) := by
  unfold closeLine
  refine ensures_get_bind (fun page h => h.status) fun page hstatus => ?_
  have hopen : page.lineOpen = s.row.isSome := congrArg Status.lineOpen hstatus
  rw [hopen]
  refine Ensures.ite (fun hrow => ?_) fun hrow => ?_
  · refine ensures_releaseText.bind fun _ => (ensures_emit (f := .closeSpan) id).bind fun _ =>
      (ensures_emit (f := .closeLine) id).bind fun _ => ?_
    refine Ensures.weaken (ensures_modify (fun status => { status with lineOpen := false })
      fun _ => ⟨rfl, rfl, rfl⟩) fun _ page h => ?_
    unfold AtEnd
    rw [Sheet.fragmentsAll_boxes, if_pos hrow, Row.ending, ← List.append_assoc]
    rw [List.append_assoc _ _ [Fragment.closeLine]] at h
    exact h
  · refine Ensures.pure fun page h => h.atEnd hbefore ?_
    exact Option.not_isSome_iff_eq_none.1 hrow

theorem Html.ensures_numberLine {fragments : List Fragment} {status : Status} :
    Ensures (Written fragments status) (numberLine options) (fun _ =>
      Written (fragments ++ [(lineNumberAt options status.depth status.lineCount).fragment])
        status) := by
  unfold numberLine
  refine ensures_get_bind (fun page h => h.status) fun page hstatus => ?_
  refine (ensures_escapeValue options.lineNumberPunc (Written fragments status)).bind fun punc => ?_
  rintro _ _ page' ⟨rfl, h⟩ hrun
  subst hstatus
  exact ensures_emit id _ _ page' h hrun

/-- A row is started when the stretch for its content is opened. -/
theorem Html.ensures_openContent {fragments : List Fragment} {count : Nat}
    (hfragments : fragments ++ [.openSpan .content] =
      before ++ (s.start options depth []).fragments)
    (hcount : (s.start options depth []).count = count) :
    Ensures (Written fragments ⟨depth, true, count, captions⟩) (emit (.openSpan .content))
      (fun _ => At before depth captions (s.start options depth [])) := by
  subst hcount
  refine (ensures_emit id).weaken fun _ page h => ?_
  have hends := (endsText_append_singleton fragments (.openSpan .content)).not.2 id
  unfold At
  rw [← hfragments]
  exact h.shows hends

/-- Opening a line starts a row. -/
theorem Html.ensures_openLine (hbefore : ¬EndsText before) :
    Ensures (At before depth captions s) (openLine options)
      (fun _ => At before depth captions (s.start options depth [])) := by
  unfold openLine
  refine (ensures_closeLine hbefore).bind fun _ => ?_
  refine Ensures.bind (ensures_modify (fun status => { status with lineOpen := true })
    fun _ => ⟨rfl, rfl, rfl⟩) fun _ => ?_
  show Ensures (Written _ ⟨depth, true, s.count, captions⟩) _ _
  refine ensures_get_bind (fun page h => h.status) fun page hstatus => ?_
  have hdepth : page.depth = depth := congrArg Status.depth hstatus
  rw [hdepth]
  refine Ensures.ite (fun hinside => ?_) fun houtside => ?_
  · refine Ensures.bind (ensures_modify (fun status =>
      { status with lineCount := status.lineCount + 1 }) fun _ => ⟨rfl, rfl, rfl⟩) fun _ => ?_
    show Ensures (Written _ ⟨depth, true, s.count + 1, captions⟩) _ _
    refine (ensures_emit (f := .openLine .code) id).bind fun _ => ?_
    refine Ensures.ite (fun hnumber => ?_) fun hnumber => ?_
    · refine ensures_numberLine.bind fun _ => ensures_openContent ?_ (if_pos hinside)
      simp only [Sheet.fragments_start, rowAt, if_pos hinside, if_pos hnumber, Row.opened,
        Inline.fragmentsAll, Option.toList_some, List.map_cons, List.map_nil, List.append_assoc,
        List.cons_append, List.nil_append]
    · refine ensures_openContent ?_ (if_pos hinside)
      simp only [Sheet.fragments_start, rowAt, if_pos hinside, if_neg hnumber, Row.opened,
        Inline.fragmentsAll, Option.toList_none, List.map_nil, List.append_assoc,
        List.cons_append, List.nil_append]
  · refine (ensures_emit (f := .openLine (.hanging _)) id).bind fun _ => ?_
    refine ensures_openContent ?_ (if_neg houtside)
    simp only [Sheet.fragments_start, rowAt, if_neg houtside, Row.opened, Inline.fragmentsAll,
      Option.toList_none, List.map_nil, List.append_assoc, List.cons_append, List.nil_append]

/-- Joining a line starts a row unless one is open. -/
theorem Html.ensures_joinLine (hbefore : ¬EndsText before) :
    Ensures (At before depth captions s) (joinLine options)
      (fun _ => At before depth captions (s.join options depth [])) := by
  unfold joinLine Sheet.join
  refine ensures_get_bind (fun page h => h.status) fun page hstatus => ?_
  have hopen : page.lineOpen = s.row.isSome := congrArg Status.lineOpen hstatus
  rw [hopen]
  by_cases hrow : s.row.isSome
  · rw [if_pos hrow, hrow, Sheet.add_nil]
    exact Ensures.pure fun page h => h
  · rw [if_neg hrow, Bool.eq_false_iff.2 hrow]
    exact ensures_openLine hbefore

/-- Fragments go into the open row. -/
theorem Html.Emits.at_add {p : RenderM β} {content : List Inline}
    (hp : Emits p (Inline.fragmentsAll content)) (hrow : s.row.isSome) :
    Ensures (At before depth captions s) p
      (fun _ => At before depth captions (s.add content)) := by
  unfold At
  rw [Sheet.fragments_add hrow, ← List.append_assoc]
  have hstatus : (s.add content).status depth captions = s.status depth captions := by
    simp only [Sheet.status, Sheet.add, Option.isSome_map]
  rw [hstatus]
  exact hp (before ++ s.fragments) (s.status depth captions)

end Sheets

/-! ## Statements -/

/-- A computation draws some marks, inside a number of blocks. -/
def Html.Draws (options : Options) (depth : Nat) (p : RenderM Unit) (marks : List Mark) : Prop :=
  ∀ before captions s, ¬EndsText before →
    Ensures (At before depth captions s) p
      (fun _ => At before depth captions (s.writeAll options depth marks))

/-- A computation goes on in the open line, and then draws some marks. -/
def Html.Continues (options : Options) (depth : Nat) (p : RenderM Unit) (content : List Inline)
    (marks : List Mark) : Prop :=
  ∀ before captions s, ¬EndsText before → s.row.isSome →
    Ensures (At before depth captions s) p
      (fun _ => At before depth captions ((s.add content).writeAll options depth marks))

section Rules

variable {options : Options} {depth : Nat} {p q : RenderM Unit} {content content' : List Inline}
  {marks marks' : List Mark}

namespace Html.Draws

theorem nil : Draws options depth (pure ()) [] := by
  intro before captions s _
  exact Ensures.pure fun page h => h

theorem append (hp : Draws options depth p marks) (hq : Draws options depth q marks') :
    Draws options depth (p >>= fun _ => q) (marks ++ marks') := by
  intro before captions s hbefore
  rw [Sheet.writeAll_append]
  exact (hp before captions s hbefore).bind fun _ => hq before captions _ hbefore

theorem start (hp : Continues options depth p content marks) :
    Draws options depth (openLine options >>= fun _ => p) (.start content :: marks) := by
  intro before captions s hbefore
  show Ensures _ _ fun _ =>
    At before depth captions ((s.start options depth content).writeAll options depth marks)
  rw [Sheet.start_eq_add]
  exact (ensures_openLine hbefore).bind fun _ => hp before captions _ hbefore rfl

theorem join (hp : Continues options depth p content marks) :
    Draws options depth (joinLine options >>= fun _ => p) (.join content :: marks) := by
  intro before captions s hbefore
  have hrow : (s.join options depth []).row.isSome := by
    unfold Sheet.join
    split
    · rwa [Sheet.add_nil]
    · rfl
  have hjoin : s.join options depth content = (s.join options depth []).add content := by
    unfold Sheet.join
    split
    · rw [Sheet.add_nil]
    · exact Sheet.start_eq_add options depth content s
  show Ensures _ _ fun _ =>
    At before depth captions ((s.join options depth content).writeAll options depth marks)
  rw [hjoin]
  exact (ensures_joinLine hbefore).bind fun _ => hp before captions _ hbefore hrow

end Html.Draws

namespace Html.Continues

theorem last {piece : Inline} (hp : Emits p piece.fragments) :
    Continues options depth p [piece] [] := by
  intro before captions s _ hrow
  rw [← Inline.fragmentsAll_singleton] at hp
  exact hp.at_add hrow

theorem piece {p : RenderM β} {piece : Inline} (hp : Emits p piece.fragments)
    (hq : Continues options depth q content marks) :
    Continues options depth (p >>= fun _ => q) (piece :: content) marks := by
  intro before captions s hbefore hrow
  rw [← Inline.fragmentsAll_singleton] at hp
  show Ensures _ _ fun _ =>
    At before depth captions ((s.add ([piece] ++ content)).writeAll options depth marks)
  rw [← Sheet.add_add]
  refine (hp.at_add hrow).bind fun _ => hq before captions _ hbefore ?_
  simpa only [Sheet.add, Option.isSome_map] using hrow

/-- The line is done. -/
theorem done (hq : Draws options depth q marks) : Continues options depth q [] marks := by
  intro before captions s hbefore _
  rw [Sheet.add_nil]
  exact hq before captions s hbefore

theorem keyword (word : String) (hq : Continues options depth q content marks) :
    Continues options depth (writeKeyword word >>= fun _ => q) (.keyword word :: content) marks :=
  piece (Emits.writeKeyword word) hq

theorem text (markup : String) (hq : Continues options depth q content marks) :
    Continues options depth (holdText markup >>= fun _ => q) (.text markup :: content) marks :=
  piece (Emits.holdText markup) hq

end Html.Continues

/-- A last line with nothing but a keyword. -/
theorem Html.Draws.keywordLine (word : String) :
    Draws options depth (openLine options >>= fun _ => writeKeyword word)
      [.start [.keyword word]] :=
  Draws.start (Continues.last (Emits.writeKeyword word))

end Rules

section Containers

variable {before : List Fragment} {depth captions : Nat} {s inner : Sheet}

/-- What a page with a sheet on it shows behind the start tag of a container. -/
def Html.Sheet.entered (before : List Fragment) (div : Div) (s : Sheet) : List Fragment :=
  before ++ Box.fragmentsAll s.boxes ++ [.openDiv div]

theorem Html.Sheet.not_endsText_entered (before : List Fragment) (div : Div) (s : Sheet) :
    ¬EndsText (s.entered before div) :=
  (endsText_append_singleton _ _).not.2 id

/-- Inside a container drawing starts on a new sheet. -/
theorem Html.Page.Written.at_new {div : Div} {count : Nat} {page : Page}
    (h : Written (s.entered before div) ⟨depth, false, count, captions⟩ page) :
    At (s.entered before div) depth captions { count := count } page := by
  have hshows := h.shows (s.not_endsText_entered before div)
  rw [← List.append_nil (s.entered before div)] at hshows
  exact hshows

/-- At the end of a container the sheet around it holds the container. -/
theorem Html.ensures_closeDiv {div : Div} :
    Ensures (At (s.entered before div) depth captions inner) closeDiv
      (fun _ => AtEnd before depth captions (s.contain div inner)) := by
  unfold closeDiv
  refine (ensures_closeLine (s.not_endsText_entered before div)).bind fun _ => ?_
  refine (ensures_emit (f := .closeDiv) id).weaken fun _ page h => ?_
  unfold AtEnd
  rw [Sheet.boxes_contain, Box.fragmentsAll_append, Box.fragmentsAll_singleton, Box.fragments]
  unfold Sheet.entered at h
  simp only [List.append_assoc, List.cons_append, List.nil_append] at h ⊢
  exact h

theorem Html.ensures_openDiv {div : Div} {count : Nat} :
    Ensures (Written (before ++ Box.fragmentsAll s.boxes) ⟨depth, false, count, captions⟩)
      (openDiv div) (fun _ => At (s.entered before div) depth captions { count := count }) :=
  (ensures_emit id).weaken fun _ _ h => h.at_new

theorem Html.ensures_openBlock {options : Options} (hbefore : ¬EndsText before) :
    Ensures (At before depth captions s) (openBlock options)
      (fun _ => At (s.entered before (.block (Em.format options.indent.toBinary64))) (depth + 1)
        captions { count := s.count }) := by
  unfold openBlock
  refine (ensures_closeLine hbefore).bind fun _ => (ensures_emit id).bind fun _ => ?_
  exact Ensures.weaken (ensures_modify (fun status => { status with depth := status.depth + 1 })
    fun _ => ⟨rfl, rfl, rfl⟩) fun _ page h => Written.at_new h

theorem Html.ensures_closeBlock {div : Div} (hbefore : ¬EndsText before) :
    Ensures (At (s.entered before div) (depth + 1) captions inner) closeBlock
      (fun _ => At before depth captions (s.contain div inner)) := by
  unfold closeBlock
  refine ensures_closeDiv.bind fun _ => ?_
  refine Ensures.weaken (ensures_modify (fun status => { status with depth := status.depth - 1 })
    fun _ => ⟨rfl, rfl, rfl⟩) fun _ page h => ?_
  exact AtEnd.at h hbefore rfl

/-- A block draws what it holds one block deeper. -/
theorem Html.Draws.block {options : Options} {p : RenderM Unit} {marks : List Mark}
    (hp : Draws options (depth + 1) p marks) :
    Draws options depth (openBlock options >>= fun _ => p >>= fun _ => closeBlock)
      [.inside (.block (Em.format options.indent.toBinary64)) marks] := by
  intro before captions s hbefore
  refine (ensures_openBlock hbefore).bind fun _ => ?_
  refine (hp _ captions _ (s.not_endsText_entered before _)).bind fun _ => ?_
  exact ensures_closeBlock hbefore

end Containers

/-! ## Nodes -/

section Lists

variable {setup : Setup} {depth : Nat}

theorem Html.Draws.all {nodes : List (Node α)}
    (h : ∀ node ∈ nodes, Draws setup.options depth (node.render setup) (node.marks setup)) :
    Draws setup.options depth (Node.renderAll setup nodes) (Node.marksAll setup nodes) := by
  induction nodes with
  | nil => exact .nil
  | cons node rest ih =>
      obtain ⟨hnode, hrest⟩ := List.forall_mem_cons.1 h
      exact hnode.append (ih hrest)

theorem Html.Draws.body {body : Option (Node α)}
    (h : ∀ block ∈ body, Draws setup.options depth (block.render setup) (block.marks setup)) :
    Draws setup.options depth (Node.renderBody setup body) (Node.marksBody setup body) := by
  cases body with
  | none => exact .nil
  | some block => exact h block rfl

theorem Html.Draws.arms {arms : List (Branch α)}
    (h : ∀ arm ∈ arms, ∀ rest,
      Draws setup.options depth (Branch.renderAll setup rest) (Branch.marksAll setup rest) →
      Draws setup.options depth (Branch.renderAll setup (arm :: rest))
        (Branch.marksAll setup (arm :: rest))) :
    Draws setup.options depth (Branch.renderAll setup arms) (Branch.marksAll setup arms) := by
  induction arms with
  | nil => exact .nil
  | cons arm rest ih =>
      obtain ⟨harm, hrest⟩ := List.forall_mem_cons.1 h
      exact harm rest (ih hrest)

end Lists

section Nodes

variable {form : Form} (setup : Setup) (depth : Nat)

theorem command_draws {loc : α} {name : String} {words : Phrase α} (hwords : Words form words) :
    Draws setup.options depth ((Node.command loc name words).render setup)
      ((Node.command loc name words).marks setup) := by
  have hlast : Continues setup.options depth (words.render setup) [words.inline setup] [] :=
    Continues.last (hwords.emits setup)
  rw [Node.render, Node.marks]
  unfold labelInlines
  cases commandLabel? name with
  | none => exact fun _ _ _ _ => Ensures.throw
  | some label =>
      dsimp only
      apply Draws.start
      by_cases hlabel : label ≠ ""
      · rw [if_pos hlabel, if_pos hlabel]
        exact Continues.keyword label hlast
      · rw [if_neg hlabel, if_neg hlabel]
        exact hlast

/-- The symbol in front of a comment and its words stand in one stretch. -/
theorem comment_emits {words : Phrase α} (hwords : Words form words) :
    Emits (do
      write (.openSpan .comment)
      holdText ((← escapeValue setup.options.commentSymbol) ++ " ")
      words.render setup
      write .closeSpan)
      (Inline.stretch .comment
        [.text (escapedValue setup.options.commentSymbol ++ " "), words.inline setup]).fragments := by
  rw [Inline.fragments, Inline.fragmentsAll, Inline.fragmentsAll_singleton, List.append_assoc]
  have hopen : Emits (write (.openSpan .comment)) [.openSpan .comment] := Emits.write id
  refine hopen.bind fun _ => ?_
  refine Emits.escapeValue_bind ((Emits.holdText _).bind fun _ => ?_)
  exact (hwords.emits setup).bind fun _ => Emits.write id

mutual

theorem Statement.draws {node : Node α} : Statement form node → ∀ depth,
    Draws setup.options depth (node.render setup) (node.marks setup)
  | .command _ hwords, depth => command_draws setup depth hwords
  | .comment hwords, depth => by
    rw [Node.render, Node.marks]
    exact .join (.last (comment_emits setup hwords))
  | .call _ hargs, depth => by
    have hargs := hargs.emits setup
    rw [Node.render, Node.marks]
    exact .join (.piece (Emits.write id) (.text "(" (.piece hargs (.last (Emits.holdText ")")))))
  | .conditional _ harms helse _, depth => by
    have harms := Draws.arms fun arm harm => (harms arm harm).draws depth
    have helse := Draws.body fun block hblock => (helse block hblock).draws depth
    rw [Node.render, Node.marks]
    refine harms.append ?_
    dsimp only
    split
    · exact .start (.keyword "else" (.done (helse.append (.keywordLine _))))
    · exact .keywordLine _
  | .loop _ hcond hbody, depth => by
    have hcond := hcond.emits setup
    have hbody := Draws.body fun block hblock => (hbody block hblock).draws depth
    rw [Node.render, Node.marks]
    exact .start (.keyword _ (.piece hcond (.keyword "do"
      (.done (hbody.append (.keywordLine _))))))
  | .function _ _ hparams hbody, depth => by
    have hparams := hparams.emits setup
    have hbody := Draws.body fun block hblock => (hbody block hblock).draws depth
    rw [Node.render, Node.marks]
    exact .start (.keyword _ (.piece (Emits.write id) (.text "(" (.piece hparams (.text ")"
      (.done (hbody.append (.keywordLine _))))))))

theorem Block.draws {node : Node α} : Block form node → ∀ depth,
    Draws setup.options depth (node.render setup) (node.marks setup)
  | .mk hchildren _, depth => by
    have hchildren := Draws.all fun node hnode => (hchildren node hnode).draws (depth + 1)
    rw [Node.render, Node.marks]
    exact hchildren.block

theorem Arm.draws {arm : Branch α} : Arm form arm → ∀ depth rest,
    Draws setup.options depth (Branch.renderAll setup rest) (Branch.marksAll setup rest) →
    Draws setup.options depth (Branch.renderAll setup (arm :: rest))
      (Branch.marksAll setup (arm :: rest))
  | .mk hcond hbody, depth, rest, hrest => by
    have hcond := hcond.emits setup
    have hbody := Draws.body fun block hblock => (hbody block hblock).draws depth
    rw [Branch.renderAll, Branch.marksAll]
    exact .start (.keyword "if" (.piece hcond (.keyword "then" (.done (hbody.append hrest)))))

end

end Nodes

/-! ## Environments -/

/-- A computation draws some marks outside all blocks, from where no line is open to
where no line is open, and may count captions. -/
def Html.Fills (options : Options) (captions : Nat) (p : RenderM Unit) (marks : List Mark)
    (captions' : Nat) : Prop :=
  ∀ before s, ¬EndsText before →
    Ensures (AtEnd before 0 captions s) p
      (fun _ => AtEnd before 0 captions' (s.writeAll options 0 marks))

section Environments

variable {options : Options} {captions captions' captions'' : Nat} {p q : RenderM Unit}
  {marks marks' : List Mark}

theorem Html.Fills.nil : Fills options captions (pure ()) [] captions := by
  intro before s _
  exact Ensures.pure fun page h => h

theorem Html.Fills.append (hp : Fills options captions p marks captions')
    (hq : Fills options captions' q marks' captions'') :
    Fills options captions (p >>= fun _ => q) (marks ++ marks') captions'' := by
  intro before s hbefore
  rw [Sheet.writeAll_append]
  exact (hp before s hbefore).bind fun _ => hq before _ hbefore

theorem Html.Page.AtEnd.at_close {before : List Fragment} {s : Sheet} {page : Page}
    (h : AtEnd before 0 captions s page) (hbefore : ¬EndsText before) :
    At before 0 captions s.close page := by
  unfold AtEnd at h
  rw [← Sheet.boxes_close] at h
  exact AtEnd.at h hbefore rfl

theorem Html.Fills.inside {div : Div} (hblocks : div.blocks = 0)
    (hrecount : ∀ count, div.recount count = count) (hp : Fills options captions p marks captions') :
    Fills options captions (openDiv div >>= fun _ => p >>= fun _ => closeDiv)
      [.inside div marks] captions' := by
  intro before s hbefore
  have hentered := s.not_endsText_entered before div
  simp only [Sheet.writeAll, Sheet.write, hblocks, hrecount]
  refine ensures_openDiv.bind fun _ => ?_
  refine Ensures.bind (Ensures.imp (hp _ { count := s.count } hentered)
    (fun _ h => h.atEnd hentered rfl) fun _ _ h => h.at_close hentered) fun _ => ?_
  exact ensures_closeDiv.weaken fun _ _ h => Sheet.contain_close s div _ ▸ h

theorem Html.Fills.counted (hp : Fills options (captions + 1) p marks captions') :
    Fills options captions (countCaption >>= fun _ => p) marks captions' := by
  intro before s hbefore
  refine Ensures.bind (ensures_modify (fun status =>
    { status with captionCount := status.captionCount + 1 }) fun _ => ⟨rfl, rfl, rfl⟩) fun _ => ?_
  exact hp before s hbefore

/-- In an algorithmic environment lines are counted anew if they are numbered. -/
theorem Html.Fills.algorithmic {numbered : Bool} (hp : Draws options 0 p marks) :
    Fills options captions (do
      if numbered then resetLineCount
      openDiv (.algorithmic numbered)
      p
      closeDiv) [.inside (.algorithmic numbered) marks] captions := by
  intro before s hbefore
  have hentered := s.not_endsText_entered before (.algorithmic numbered)
  have hinside : ∀ count : Nat,
      Ensures (Written (before ++ Box.fragmentsAll s.boxes) ⟨0, false, count, captions⟩)
        (openDiv (.algorithmic numbered) >>= fun _ => p >>= fun _ => closeDiv)
        (fun _ => AtEnd before 0 captions (s.contain (.algorithmic numbered)
          (Sheet.writeAll options 0 { count := count } marks))) := by
    intro count
    refine ensures_openDiv.bind fun _ => ?_
    exact (hp _ captions { count := count } hentered).bind fun _ => ensures_closeDiv
  cases numbered with
  | true =>
      refine Ensures.bind (ensures_modify (fun status => { status with lineCount := 0 })
        fun _ => ⟨rfl, rfl, rfl⟩) fun _ => ?_
      exact hinside 0
  | false => exact hinside s.count

/-- The line of a caption is closed at its end. -/
theorem Html.Fills.captionLine {setup : Setup} {text : RenderM Unit} {words : Inline}
    (htext : Emits text words.fragments) :
    Fills setup.options captions (captionLine setup text)
      [.alone [.keyword ("Algorithm " ++ toString captions), words]] captions := by
  intro before s hbefore
  have hkeyword : Emits (writeKeyword ("Algorithm " ++ toString captions))
      (Inline.fragmentsAll [.keyword ("Algorithm " ++ toString captions)]) :=
    Emits.writeKeyword _
  rw [← Inline.fragmentsAll_singleton] at htext
  have hboxes : ∀ content page, AtEnd before 0 captions
      (((s.start setup.options 0 []).add content)) page →
      AtEnd before 0 captions (s.start setup.options 0 content).close page := by
    intro content page h
    unfold AtEnd
    rw [Sheet.boxes_close, Sheet.start_eq_add]
    exact h
  have hopened := @ensures_openLine setup.options before 0 captions s.close hbefore
  rw [Sheet.start_close] at hopened
  unfold Html.captionLine
  refine Ensures.bind (hopened.imp (fun _ h => h.at_close hbefore) fun _ _ h => h) fun _ => ?_
  refine ensures_get_bind (fun page h => h.status) fun page hstatus => ?_
  have hcaptions : page.captionCount = captions := congrArg Status.captionCount hstatus
  rw [hcaptions]
  refine (hkeyword.at_add rfl).bind fun _ => ?_
  refine (htext.at_add rfl).bind fun _ => ?_
  rw [Sheet.add_add]
  exact (ensures_closeLine hbefore).weaken (fun _ => hboxes _)

end Environments

/-! ## Captions -/

theorem lastCaption?_caption (loc : α) (words : Phrase α) (rest : List (Node α)) :
    lastCaption? (.caption loc words :: rest) = some ((lastCaption? rest).getD words) := by
  unfold lastCaption?
  rw [List.reverse_cons, List.findSome?_append]
  cases List.findSome? _ rest.reverse with
  | none => rfl
  | some last => rfl

theorem lastCaption?_cons {node : Node α} (h : node.isCaption = false) (rest : List (Node α)) :
    lastCaption? (node :: rest) = lastCaption? rest := by
  unfold lastCaption?
  rw [List.reverse_cons, List.findSome?_append]
  cases node with
  | caption => cases h
  | _ => exact Option.or_none

theorem isSome_lastCaption? (nodes : List (Node α)) :
    (lastCaption? nodes).isSome = nodes.any Node.isCaption := by
  induction nodes with
  | nil => rfl
  | cons node rest ih =>
      rw [List.any_cons, ← ih]
      cases hnode : node.isCaption with
      | false => rw [lastCaption?_cons hnode, Bool.false_or]
      | true =>
          cases node with
          | caption loc words =>
              rw [lastCaption?_caption]
              rfl
          | _ => cases hnode

section Documents

variable {form : Form} (setup : Setup)

theorem Part.lastCaption_fills (captions : Nat) {parts : List (Node α)}
    (hparts : ∀ part ∈ parts, Part form part) :
    Fills setup.options captions (Node.renderLastCaption setup parts)
      (captionMarks setup captions parts) captions := by
  induction parts with
  | nil => exact .nil
  | cons part rest ih =>
      obtain ⟨hpart, hrest⟩ := List.forall_mem_cons.1 hparts
      have ih := ih hrest
      unfold captionMarks at ih ⊢
      cases hpart with
      | algorithmic halgorithmic =>
          obtain ⟨_, _⟩ := halgorithmic
          rw [lastCaption?_cons rfl]
          exact ih
      | caption hwords =>
          rw [Node.renderLastCaption, lastCaption?_caption, ← isSome_lastCaption?]
          cases hlast : lastCaption? rest with
          | some last =>
              rw [hlast] at ih
              exact ih
          | none => exact .captionLine (hwords.emits setup)

theorem Section.draws {node : Node α} (h : Section form node) :
    Draws setup.options 0 (node.render setup) (node.marks setup) := by
  cases h with
  | precondition _ hwords => exact command_draws setup 0 hwords
  | block hblock => exact hblock.draws setup 0

theorem Algorithmic.fills (captions : Nat) {node : Node α} (h : Algorithmic form node) :
    Fills setup.options captions (node.render setup) (node.marks setup) captions := by
  obtain ⟨hchildren, -⟩ := h
  have hall := Draws.all fun child hchild => (hchildren child hchild).draws setup
  rw [Node.render, Node.marks]
  exact Fills.algorithmic hall

theorem Part.parts_fills (captions : Nat) {parts : List (Node α)}
    (hparts : ∀ part ∈ parts, Part form part) :
    Fills setup.options captions (Node.renderParts setup parts) (Node.marksAll setup parts)
      captions := by
  induction parts with
  | nil => exact .nil
  | cons part rest ih =>
      obtain ⟨hpart, hrest⟩ := List.forall_mem_cons.1 hparts
      cases hpart with
      | caption => exact ih hrest
      | algorithmic halgorithmic =>
          have hpart := halgorithmic.fills setup captions
          obtain ⟨_, _⟩ := halgorithmic
          exact hpart.append (ih hrest)

theorem Environment.fills (captions : Nat) {node : Node α} (h : Environment form node) :
    Fills setup.options captions (node.render setup) (node.environmentMarks setup captions)
      (captions + node.captioned) := by
  cases h with
  | algorithmic halgorithmic =>
      have hfills := halgorithmic.fills setup captions
      obtain ⟨_, _⟩ := halgorithmic
      exact hfills
  | @algorithm loc parts hparts =>
      have hall : ∀ captions, Fills setup.options captions (do
          openDiv (.algorithm (parts.any Node.isCaption))
          Node.renderLastCaption setup parts
          Node.renderParts setup parts
          closeDiv)
          [.inside (.algorithm (parts.any Node.isCaption))
            (captionMarks setup captions parts ++ Node.marksAll setup parts)] captions := by
        intro captions
        have hlast := Part.lastCaption_fills setup captions hparts
        have hrest := Part.parts_fills setup captions hparts
        have hinside : Fills setup.options captions (do
            openDiv (.algorithm (parts.any Node.isCaption))
            (do Node.renderLastCaption setup parts; Node.renderParts setup parts)
            closeDiv) _ captions :=
          Fills.inside rfl (fun _ => rfl) (hlast.append hrest)
        simpa only [bind_assoc] using hinside
      rw [Node.render, Node.environmentMarks, Node.captioned]
      dsimp only
      cases hcaptioned : parts.any Node.isCaption with
      | true =>
          rw [hcaptioned] at hall
          exact (hall (captions + 1)).counted
      | false =>
          have hnone : lastCaption? parts = none := by
            rw [← Option.not_isSome_iff_eq_none, isSome_lastCaption?, hcaptioned]
            exact Bool.false_ne_true
          have hmarks : captionMarks setup (captions + 1) parts =
              captionMarks setup captions parts := by
            unfold captionMarks
            rw [hnone]
            rfl
          rw [hcaptioned] at hall
          rw [hmarks]
          exact hall captions

theorem Environment.all_fills (captions : Nat) {nodes : List (Node α)}
    (h : ∀ node ∈ nodes, Environment form node) :
    ∃ captions', Fills setup.options captions (Node.renderAll setup nodes)
      (Node.environmentsMarks setup captions nodes) captions' := by
  induction nodes generalizing captions with
  | nil => exact ⟨captions, .nil⟩
  | cons node rest ih =>
      obtain ⟨hnode, hrest⟩ := List.forall_mem_cons.1 h
      obtain ⟨captions', hfills⟩ := ih (captions + node.captioned) hrest
      exact ⟨captions', (hnode.fills setup captions).append hfills⟩

/-- A document whose rendering comes to its end is rendered to the boxes of its
layout. -/
theorem Document.rendering_fragments {tree : Node α} (h : Document form tree)
    (hfault : (tree.rendering setup).fault = none) :
    (tree.rendering setup).page.fragments.toList =
      (Box.container .document (tree.layout setup)).merge.fragments := by
  obtain ⟨henvironments⟩ := h
  obtain ⟨captions, hfills⟩ := Environment.all_fills setup 0 henvironments
  have hdocument : Fills setup.options 0 _
      [.inside .document (Node.environmentsMarks setup 0 _)] captions :=
    Fills.inside rfl (fun _ => rfl) hfills
  have hempty : AtEnd [] 0 0 {} {} := ⟨rfl, rfl, rfl⟩
  unfold Node.rendering at hfault ⊢
  rw [Node.render] at hfault ⊢
  split at hfault
  · next page hrun =>
    have hpage := hdocument [] {} not_endsText_nil {} () page hempty hrun
    rw [← Box.merged_fragments, ← Box.fragmentsAll_singleton]
    exact hpage.fragments
  · cases hfault

end Documents

end AlgoBox
