import AlgoBox.Proofs.Deciding
import AlgoBox.Proofs.Following

/-!
# Failures without a report

Whatever goes wrong on the way from a source and a mapping of options to markup has a
report, but for two cases (`unreported_iff`). One is an indent that is refused and cannot be
quoted, since a whole number in it is too long. The other is a value for the symbol of comments
or for what follows line numbers that is no text and counts as true. No option but the indent
is checked when it is read, so such a value fails where it is written, if it ever is.
-/

namespace AlgoBox

open Html Page

variable {α β : Type}

/-- The failure has a report. -/
def Failure.IsReported (failure : Failure) : Prop := failure.report?.isSome = true

/-! ## Requests -/

theorem Conversion.result_bind (c : Conversion α) (next : α → Conversion β) :
    (c >>= next).result = c.result >>= fun a => (next a).result := by
  show (Conversion.bind c next).result = _
  unfold Conversion.bind
  cases c.result with
  | ok a => rfl
  | error failure => rfl

theorem readTree_result (level : Log.Level) (source : String) :
    (readTree level source).result = (parse source).mapError (.source source) := by
  unfold readTree
  rw [Conversion.result_bind]
  show ((parse source).mapError _ >>= fun tree => _) = _
  cases parse source with
  | ok tree => rfl
  | error fault => rfl

theorem Options.Choice.read_result (level : Log.Level) (entries : List (String × Value)) :
    (read level (.mapping entries)).result = (ofMapping entries).mapError .options := by
  unfold read
  rfl

/-- Turning a source into markup with a mapping of options, without the log. -/
theorem toHtml_mapping (level : Log.Level) (entries : List (String × Value))
    (typesetter : Typesetter) (source : String) :
    (toHtml level (.mapping entries) typesetter (some source)).result = (do
      let options ← (Options.ofMapping entries).mapError .options
      let tree ← (parse source).mapError (.source source)
      (renderTree level options typesetter tree).result) := by
  show (Options.Choice.read level (.mapping entries) >>= fun options =>
    readTree level source >>= fun tree => renderTree level options typesetter tree).result = _
  simp only [Conversion.result_bind, readTree_result, Options.Choice.read_result]

theorem not_isReported_notText (value : Value) : ¬(Failure.render (.notText value)).IsReported :=
  nofun

/-- A tree that has been read is turned into markup, or fails at a foreign value. -/
theorem Node.Normal.renderTree_cases {tree : Node α} (h : tree.Normal) (level : Log.Level)
    (options : Options) (typesetter : Typesetter) :
    let shown := (tree.rendering ⟨options.tamed, typesetter.getD delimited⟩).page.fragments.toList
    ((∀ f ∈ shown, ¬f.HoldsForeign options) ∧
      ∃ html, (renderTree level options typesetter tree).result = .ok html) ∨
    ((∃ f ∈ shown, f.HoldsForeign options) ∧ ∃ value,
      (renderTree level options typesetter tree).result = .error (.render (.notText value)) ∧
        value.IsForeign ∧ (value = options.commentSymbol ∨ value = options.lineNumberPunc)) := by
  intro shown
  have htamed := h.fault_eq_none ⟨options.tamed, typesetter.getD delimited⟩
  obtain ⟨hresult, -⟩ := h.renderTree_eq level options typesetter
  rw [hresult]
  unfold Rendering.markup
  rcases h.rendering_tamed ⟨options, typesetter.getD delimited⟩ with
    ⟨hquiet, hsame⟩ | ⟨hforeign, value, hfault, hvalue⟩
  · have hfault : (tree.rendering ⟨options, typesetter.getD delimited⟩).fault = none := by
      rw [hsame]
      exact htamed
    rw [hfault]
    exact .inl ⟨hquiet, _, rfl⟩
  · rw [hfault]
    exact .inr ⟨hforeign, value, rfl, hvalue⟩

/-- With options that have been made, the only failures without a report are those at foreign
values. -/
theorem unreported_iff_of_options (level : Log.Level) (options : Options) (typesetter : Typesetter)
    (source : String) {result : Except Failure String}
    (hresult : (do
      let tree ← (parse source).mapError (.source source)
      (renderTree level options typesetter tree).result) = result) :
    ((∃ failure, result = .error failure ∧ ¬failure.IsReported) ↔
      ∃ tree, parse source = .ok tree ∧
        ∃ f ∈ (tree.rendering ⟨options.tamed, typesetter.getD delimited⟩).page.fragments.toList,
          f.HoldsForeign options) ∧
    ∀ failure, result = .error failure → ¬failure.IsReported →
      ∃ value, failure = .render (.notText value) ∧ value.IsForeign ∧
        (value = options.commentSymbol ∨ value = options.lineNumberPunc) := by
  subst hresult
  cases hparse : parse source with
  | error fault =>
      have hreported : (Failure.source source fault).IsReported := rfl
      refine ⟨⟨?_, nofun⟩, ?_⟩
      · rintro ⟨failure, ⟨⟩, hfailure⟩
        exact absurd hreported hfailure
      · rintro failure ⟨⟩ hfailure
        exact absurd hreported hfailure
  | ok tree =>
      show ((∃ failure, (renderTree level options typesetter tree).result = _ ∧ _) ↔ _) ∧
        ∀ failure, (renderTree level options typesetter tree).result = _ → _
      rcases (normal_of_parse hparse).renderTree_cases level options typesetter with
        ⟨hquiet, html, hhtml⟩ | ⟨⟨f, hf, hforeign⟩, value, hvalue, hkind⟩
      · rw [hhtml]
        refine ⟨⟨nofun, ?_⟩, nofun⟩
        rintro ⟨tree, ⟨⟩, f, hf, hforeign⟩
        exact absurd hforeign (hquiet f hf)
      · rw [hvalue]
        refine ⟨⟨fun _ => ⟨tree, rfl, f, hf, hforeign⟩, fun _ => ?_⟩, ?_⟩
        · exact ⟨_, rfl, not_isReported_notText value⟩
        · rintro failure ⟨⟩ -
          exact ⟨value, rfl, hkind⟩

/-- With a mapping of options, a source is turned into markup or fails with a report, but for two
cases. The indent holds a whole number that is too long to be quoted; then the options are
refused. Or the source is read, and with empty texts in place of foreign values the output would
have a comment or a line number where such a value would stand; then it fails at one of these
values. -/
theorem unreported_iff (level : Log.Level) (entries : List (String × Value))
    (typesetter : Typesetter) (source : String) :
    ((∃ failure, (toHtml level (.mapping entries) typesetter (some source)).result =
        .error failure ∧ ¬failure.IsReported) ↔
      (∃ value, Options.deciding? .indent entries = some value ∧ value.HoldsLong) ∨
      ∃ options tree, Options.ofMapping entries = .ok options ∧ parse source = .ok tree ∧
        ∃ f ∈ (tree.rendering ⟨options.tamed, typesetter.getD delimited⟩).page.fragments.toList,
          f.HoldsForeign options) ∧
    ∀ failure, (toHtml level (.mapping entries) typesetter (some source)).result =
        .error failure → ¬failure.IsReported →
      failure = .options .unquotable ∨
      ∃ options value, Options.ofMapping entries = .ok options ∧
        failure = .render (.notText value) ∧ value.IsForeign ∧
        (value = options.commentSymbol ∨ value = options.lineNumberPunc) := by
  rw [toHtml_mapping]
  cases hoptions : Options.ofMapping entries with
  | error fault =>
      obtain ⟨value, hdeciding, ⟨hlong, rfl⟩ | ⟨hshort, hreport⟩⟩ :=
        Options.ofMapping_error_cases hoptions
      · refine ⟨⟨fun _ => .inl ⟨value, hdeciding, hlong⟩, fun _ => ⟨_, rfl, nofun⟩⟩, ?_⟩
        rintro failure ⟨⟩ -
        exact .inl rfl
      · have hreported : (Failure.options fault).IsReported := by
          unfold Failure.IsReported
          rw [hreport]
          rfl
        refine ⟨⟨?_, ?_⟩, ?_⟩
        · rintro ⟨failure, ⟨⟩, hfailure⟩
          exact absurd hreported hfailure
        · rintro (⟨value', hdeciding', hlong⟩ | ⟨options, tree, ⟨⟩, -⟩)
          obtain rfl := Option.some.inj (hdeciding.symm.trans hdeciding')
          exact absurd hlong hshort
        · rintro failure ⟨⟩ hfailure
          exact absurd hreported hfailure
  | ok options =>
      have hshort : ¬∃ value, Options.deciding? .indent entries = some value ∧ value.HoldsLong :=
        fun ⟨_, hdeciding, hlong⟩ => Options.not_holdsLong_of_ofMapping hoptions hdeciding hlong
      obtain ⟨hiff, hkind⟩ := unreported_iff_of_options level options typesetter source rfl
      refine ⟨hiff.trans ⟨?_, ?_⟩, fun failure hfailure hunreported => ?_⟩
      · rintro ⟨tree, hparse, hforeign⟩
        exact .inr ⟨options, tree, rfl, hparse, hforeign⟩
      · rintro (hlong | ⟨options', tree, ⟨⟩, hparse, hforeign⟩)
        · exact absurd hlong hshort
        · exact ⟨tree, hparse, hforeign⟩
      · obtain ⟨value, hvalue, hforeign⟩ := hkind failure hfailure hunreported
        exact .inr ⟨options, value, rfl, hvalue, hforeign⟩

/-- Not every failure is reported: a number in front of comments is taken as an option,
and found to be no text at the first comment. -/
theorem not_always_reported :
    ¬∀ (level : Log.Level) (entries : List (String × Value)) (source : String),
      (∃ html, (toHtml level (.mapping entries) none (some source)).result = .ok html) ∨
      ∃ failure, (toHtml level (.mapping entries) none (some source)).result = .error failure ∧
        failure.IsReported := by
  intro h
  have hfails : (match (toHtml .warning (.mapping [("commentSymbol", .int 5)]) none
      (some "\\begin{algorithmic}\\COMMENT{x}\\end{algorithmic}")).result with
      | .error failure => failure.report?.isSome
      | .ok _ => true) = false := by
    decide +kernel
  rcases h .warning [("commentSymbol", .int 5)]
      "\\begin{algorithmic}\\COMMENT{x}\\end{algorithmic}" with
    ⟨html, hhtml⟩ | ⟨failure, hfailure, hreported⟩
  · rw [hhtml] at hfails
    cases hfails
  · rw [hfailure] at hfails
    cases hreported.symm.trans hfails

end AlgoBox
