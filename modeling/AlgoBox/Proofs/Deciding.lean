import AlgoBox.Convert
import Mathlib.Data.List.Basic
import Mathlib.Logic.Relation

/-!
# Which entry of a mapping decides

A mapping of options may name an option twice in either spelling, leave entries empty and
hold entries that mean nothing. Each option goes by one entry: the last one under either
of its names that is neither absent nor the empty text (`deciding?`). The mapping is
refused for one reason only, that the entry deciding the indent is not a length; what
stands in the entries that decide nothing is never read (`ofMapping_decided`).

A refusal quotes the value that is refused, and is reported just if this can be done
(`Em.parse_error_cases`): no whole number in the value may be too long
(`Value.quoted?_eq_none_iff`).
-/

namespace AlgoBox

open Numeric Text

-- powers of naturals are the core ones, as in the definition of a double
attribute [local instance (high)] instPowNat

/-! ## Values that cannot be quoted -/

namespace Value

/-- The value is a whole number with more digits than are written, or a list that holds one at
any depth. -/
inductive HoldsLong : Value → Prop
  | int {n : Int} : 10 ^ digitLimit ≤ n.natAbs → HoldsLong (.int n)
  | list {items : List Value} {item : Value} : item ∈ items → HoldsLong item →
      HoldsLong (.list items)

mutual

/-- The values that cannot be quoted are those that hold a number that is too long. -/
theorem quoted?_eq_none_iff : ∀ value : Value, value.quoted? = none ↔ value.HoldsLong
  | .null | .bool _ | .double _ | .text _ => ⟨nofun, nofun⟩
  | .int n => by
      unfold quoted?
      constructor
      · intro h
        split at h
        · cases h
        · rename_i hlong
          exact .int (Nat.le_of_not_lt hlong)
      · rintro ⟨hlong⟩
        rw [if_neg (Nat.not_lt_of_le hlong)]
  | .list items => by
      have hitems := quotedAll?_eq_none_iff items
      unfold quoted?
      constructor
      · intro h
        cases hquoted : quotedAll? items with
        | some texts =>
            rw [hquoted] at h
            cases h
        | none =>
            obtain ⟨item, hmem, hlong⟩ := hitems.1 hquoted
            exact .list hmem hlong
      · intro h
        cases h with
        | list hmem hlong =>
            rw [hitems.2 ⟨_, hmem, hlong⟩]
            rfl

theorem quotedAll?_eq_none_iff :
    ∀ items : List Value, quotedAll? items = none ↔ ∃ item ∈ items, item.HoldsLong
  | [] => by simp [quotedAll?]
  | value :: rest => by
      rw [List.exists_mem_cons_iff, ← quoted?_eq_none_iff value, ← quotedAll?_eq_none_iff rest,
        quotedAll?]
      cases value.quoted? with
      | none => simp
      | some text => cases quotedAll? rest <;> simp

end

end Value

/-- A fault that quotes a value becomes another one, which is not reported, just where the value
cannot be quoted. -/
theorem OptionFault.of_cases (fault : String → OptionFault) (value : Value) :
    (value.HoldsLong ∧ OptionFault.of fault value = .unquotable) ∨
    (¬value.HoldsLong ∧ ∃ quoted, OptionFault.of fault value = fault quoted) := by
  rw [← value.quoted?_eq_none_iff]
  unfold OptionFault.of
  cases value.quoted? with
  | none => exact .inl ⟨rfl, rfl⟩
  | some quoted => exact .inr ⟨nofun, quoted, rfl⟩

/-! ## Lengths -/

namespace Em

/-- The value is the text of a length: blanks around a number literal with the unit
behind it, where the number is finite and not negative. -/
def Writes (value : Value) (ems : Binary64) : Prop :=
  ∃ text number, value = .text text ∧ trim isBlank text.toList = number ++ unit ∧
    Literal.read? number = some ems ∧ ems.isFinite = true ∧ ems.isNegative = false

/-- A text ends in the unit exactly if the unit is what its last two characters are. -/
theorem drop_eq_unit_iff {s number : List Char} :
    (s.drop (s.length - 2) = unit ∧ s.take (s.length - 2) = number) ↔ s = number ++ unit := by
  constructor
  · rintro ⟨hunit, rfl⟩
    rw [← hunit, List.take_append_drop]
  · rintro rfl
    have hlength : (number ++ unit).length - 2 = number.length := by simp [unit]
    rw [hlength]
    exact ⟨List.drop_left, List.take_left⟩

/-- The lengths that are read are the ones that are written. -/
theorem parse_eq_ok_iff {value : Value} {ems : Binary64} :
    parse value = .ok ems ↔ Writes value ems := by
  constructor
  · intro h
    cases value with
    | text text =>
        unfold parse parseText at h
        dsimp only at h
        split at h
        · cases h
        · rename_i hunit
          split at h
          · cases h
          · rename_i x hnumber
            split at h
            · rename_i hlength
              cases h
              rw [Bool.and_eq_true, Bool.not_eq_true'] at hlength
              exact ⟨text, _, rfl, drop_eq_unit_iff.mp ⟨not_not.mp hunit, rfl⟩, hnumber,
                hlength⟩
            · cases h
    | _ => cases h
  · rintro ⟨text, number, rfl, htrim, hnumber, hfinite, hnegative⟩
    obtain ⟨hunit, htake⟩ := drop_eq_unit_iff.mpr htrim
    show parseText text = _
    unfold parseText
    dsimp only
    rw [if_neg (not_not.mpr hunit), htake, hnumber]
    dsimp only
    rw [if_pos (by rw [hfinite, hnegative]; rfl)]

theorem parse_fails_iff {value : Value} :
    (∃ fault, parse value = .error fault) ↔ ∀ ems, ¬Writes value ems := by
  cases h : parse value with
  | error fault =>
      refine ⟨fun _ ems hwrites => ?_, fun _ => ⟨fault, rfl⟩⟩
      cases h.symm.trans (parse_eq_ok_iff.mpr hwrites)
  | ok ems =>
      refine ⟨nofun, fun hnone => ?_⟩
      exact absurd (parse_eq_ok_iff.mp h) (hnone ems)

/-- A value that is no length is refused as a faulty configuration, unless it cannot be
quoted. -/
theorem parse_error_cases {value : Value} {fault : OptionFault} (h : parse value = .error fault) :
    (value.HoldsLong ∧ fault = .unquotable) ∨
    (¬value.HoldsLong ∧ (Failure.options fault).report? =
      some (.make .configuration fault.message none none)) := by
  cases value with
  | text text =>
      refine .inr ⟨nofun, ?_⟩
      unfold parse parseText at h
      dsimp only at h
      split at h
      · cases h
        rfl
      · split at h
        · cases h
          rfl
        · split at h
          · cases h
          · cases h
            rfl
  | _ =>
      obtain rfl : OptionFault.of .lengthNotText _ = fault := Except.error.inj h
      rcases OptionFault.of_cases .lengthNotText _ with ⟨hlong, heq⟩ | ⟨hshort, quoted, heq⟩
      · exact .inl ⟨hlong, heq⟩
      · refine .inr ⟨hshort, ?_⟩
        rw [heq]
        rfl

end Em

/-- Every indent is finite and not negative. -/
theorem Indent.isLength (indent : Indent) :
    indent.toBinary64.isFinite = true ∧ indent.toBinary64.isNegative = false := by
  cases indent with
  | measured ems hfinite hnegative => exact ⟨hfinite, hnegative⟩
  | whole ems hfinite =>
      refine ⟨hfinite, ?_⟩
      have hpositive : decide ((ems : Int) < 0) = false := by simp
      show (Binary64.ofInt ems).isNegative = false
      unfold Binary64.ofInt Binary64.nearest Binary64.ofRank
      rw [hpositive]
      split <;> rfl

namespace Options

variable {α : Type} {field : Field} {entry : String × Value}
  {entries others : List (String × Value)}

/-! ## The deciding entry -/

/-- The name is one of the two that the option has. -/
def Field.HasName (field : Field) (name : String) : Prop :=
  name = field.name ∨ name = field.userName

/-- The entry gives the option a value: it has one of the names of the option, and is
neither absent nor the empty text. -/
def Field.IsSetBy (field : Field) (entry : String × Value) : Prop :=
  field.HasName entry.1 ∧ isVoid entry.2 = false

instance (field : Field) (name : String) : Decidable (field.HasName name) :=
  inferInstanceAs (Decidable (_ ∨ _))

instance (field : Field) (entry : String × Value) : Decidable (field.IsSetBy entry) :=
  inferInstanceAs (Decidable (_ ∧ _))

/-- The value of the last entry that gives the option one. -/
def deciding? (field : Field) (entries : List (String × Value)) : Option Value :=
  (entries.reverse.find? fun entry => decide (field.IsSetBy entry)).map (·.2)

theorem deciding?_append (field : Field) (l m : List (String × Value)) :
    deciding? field (l ++ m) = (deciding? field m).or (deciding? field l) := by
  unfold deciding?
  rw [List.reverse_append, List.find?_append, Option.map_or]

theorem deciding?_cons (field : Field) (entry : String × Value) (l : List (String × Value)) :
    deciding? field (entry :: l) = (deciding? field l).or (deciding? field [entry]) :=
  deciding?_append field [entry] l

theorem deciding?_singleton (field : Field) (entry : String × Value) :
    deciding? field [entry] = if field.IsSetBy entry then some entry.2 else none := by
  by_cases h : field.IsSetBy entry <;> simp [deciding?, h]

theorem deciding?_eq_none_iff :
    deciding? field entries = none ↔ ∀ entry ∈ entries, ¬field.IsSetBy entry := by
  simp [deciding?]

/-- What decides is the last entry that gives a value. -/
theorem deciding?_eq_some_iff {value : Value} :
    deciding? field entries = some value ↔
      ∃ front name back, entries = front ++ (name, value) :: back ∧
        field.IsSetBy (name, value) ∧ ∀ entry ∈ back, ¬field.IsSetBy entry := by
  unfold deciding?
  rw [Option.map_eq_some_iff]
  constructor
  · rintro ⟨⟨name, w⟩, hfind, rfl⟩
    obtain ⟨hset, back, front, hsplit, hback⟩ := List.find?_eq_some_iff_append.mp hfind
    refine ⟨front.reverse, name, back.reverse, ?_, of_decide_eq_true hset, fun entry hentry => ?_⟩
    · rw [← List.reverse_inj, hsplit]
      simp
    · simpa using hback entry (List.mem_reverse.mp hentry)
  · rintro ⟨front, name, back, rfl, hset, hback⟩
    refine ⟨(name, value), List.find?_eq_some_iff_append.mpr ⟨decide_eq_true hset, ?_⟩, rfl⟩
    refine ⟨back.reverse, front.reverse, by simp, fun entry hentry => ?_⟩
    simpa using hback entry (List.mem_reverse.mp hentry)

-- a later entry in the other spelling decides, and an empty one behind it does not
example : deciding? .indent
    [("indentSize", .text "wide"), ("indent_size", .text "2em"), ("indentSize", .text "")] =
      some (.text "2em") := rfl

/-! ## Names -/

/-- No two options share a name. -/
theorem Field.ofUserName?_eq_some_iff {name : String} :
    ofUserName? name = some field ↔ field.HasName name := by
  constructor
  · intro h
    have hfound := List.find?_some h
    rw [Bool.or_eq_true, decide_eq_true_eq, decide_eq_true_eq] at hfound
    exact hfound.imp Eq.symm Eq.symm
  · rintro (rfl | rfl) <;> cases field <;> decide

theorem Field.HasName.unique {name : String} {other : Field} (h : field.HasName name)
    (hother : other.HasName name) : field = other :=
  Option.some_inj.mp ((ofUserName?_eq_some_iff.mpr h).symm.trans
    (ofUserName?_eq_some_iff.mpr hother))

/-- The option that an entry sets and the value that it gives to it. -/
def setting? (entry : String × Value) : Option (Field × Value) :=
  if isVoid entry.2 then none else (Field.ofUserName? entry.1).map (·, entry.2)

theorem setting?_eq_some_iff {value : Value} :
    setting? entry = some (field, value) ↔ field.IsSetBy entry ∧ value = entry.2 := by
  unfold setting? Field.IsSetBy
  rw [← Field.ofUserName?_eq_some_iff]
  cases isVoid entry.2 with
  | true => simp
  | false =>
      rw [if_neg Bool.false_ne_true, Option.map_eq_some_iff]
      constructor
      · rintro ⟨_, hname, ⟨⟩⟩
        exact ⟨⟨hname, rfl⟩, rfl⟩
      · rintro ⟨⟨hname, -⟩, rfl⟩
        exact ⟨field, hname, rfl⟩

theorem setting?_any (field : Field) (entry : String × Value) :
    ((setting? entry).any fun set => decide (set.1 = field)) = decide (field.IsSetBy entry) := by
  rw [Bool.eq_iff_iff, Option.any_eq_true, decide_eq_true_eq]
  constructor
  · rintro ⟨⟨other, value⟩, hset, hother⟩
    obtain rfl := of_decide_eq_true hother
    exact (setting?_eq_some_iff.mp hset).1
  · intro hset
    exact ⟨_, setting?_eq_some_iff.mpr ⟨hset, rfl⟩, decide_eq_true rfl⟩

/-- The last of the settings is the one of the deciding entry. -/
theorem lastValue?_settings (field : Field) (entries : List (String × Value)) :
    lastValue? field (settings entries) = deciding? field entries := by
  have hsettings : (settings entries).reverse = entries.reverse.filterMap setting? :=
    List.filterMap_reverse.symm
  unfold lastValue? deciding?
  rw [hsettings, List.find?_filterMap]
  simp only [setting?_any]
  cases hfind : entries.reverse.find? fun entry => decide (field.IsSetBy entry) with
  | none => rfl
  | some entry =>
      have hset : field.IsSetBy entry := by simpa using List.find?_some hfind
      rw [Option.bind_some, setting?_eq_some_iff.mpr ⟨hset, rfl⟩]
      rfl

/-! ## What a mapping gives -/

/-- The options are the ones that the deciding entries give: the indent is the length
that its entry writes, lines are numbered if their entry counts as true, and the other
two are their entries' values. An option that no entry decides is the default one. -/
structure DecidedBy (options : Options) (entries : List (String × Value)) : Prop where
  indent : ∃ ems, options.indent.toValue = .double ems ∧
    match deciding? .indent entries with
    | none => ems = defaultIndent
    | some value => Em.Writes value ems
  commentSymbol : options.commentSymbol =
    (deciding? .commentSymbol entries).getD (Field.default .commentSymbol)
  lineNumberPunc : options.lineNumberPunc =
    (deciding? .lineNumberPunc entries).getD (Field.default .lineNumberPunc)
  lineNumber : options.lineNumber =
    ((deciding? .lineNumber entries).map fun value => .bool value.isTrue).getD
      (Field.default .lineNumber)

theorem lastValue?_append (field : Field) (l m : List (Field × Value)) :
    lastValue? field (l ++ m) = (lastValue? field m).or (lastValue? field l) := by
  unfold lastValue?
  rw [List.reverse_append, List.find?_append, Option.map_or]

theorem valueOf_append (field : Field) (l m : List (Field × Value)) :
    valueOf (l ++ m) field = (lastValue? field m).getD (valueOf l field) := by
  unfold valueOf
  rw [lastValue?_append, Option.getD_or]

/-- Entries whose indent is a length are taken as options. -/
theorem ofEntries_of_length {set : List (Field × Value)} {ems : Binary64}
    (hindent : valueOf set .indent = .double ems) (hfinite : ems.isFinite = true)
    (hnegative : ems.isNegative = false) :
    ofEntries set = .ok {
      indent := .measured ems hfinite hnegative
      commentSymbol := valueOf set .commentSymbol
      lineNumberPunc := valueOf set .lineNumberPunc
      lineNumber := valueOf set .lineNumber } := by
  unfold ofEntries
  rw [hindent]
  simp only [Indent.ofValue, Indent.ofBinary64?, dif_pos (And.intro hfinite hnegative)]
  rfl

theorem ofEntries_eq_ok_iff {set : List (Field × Value)} {ems : Binary64} {options : Options}
    (hindent : valueOf set .indent = .double ems) (hfinite : ems.isFinite = true)
    (hnegative : ems.isNegative = false) :
    ofEntries set = .ok options ↔ options.indent.toValue = .double ems ∧
      options.commentSymbol = valueOf set .commentSymbol ∧
      options.lineNumberPunc = valueOf set .lineNumberPunc ∧
      options.lineNumber = valueOf set .lineNumber := by
  rw [ofEntries_of_length hindent hfinite hnegative]
  obtain ⟨indent, commentSymbol, lineNumberPunc, lineNumber⟩ := options
  constructor
  · rintro ⟨⟩
    exact ⟨rfl, rfl, rfl, rfl⟩
  · rintro ⟨hvalue, rfl, rfl, rfl⟩
    cases indent with
    | whole => cases hvalue
    | measured =>
        cases hvalue
        rfl

/-- The settings of a mapping with the length and the truth value read from the ones that
decide behind them. -/
def decidedSettings (entries : List (String × Value)) (length : Option Binary64) :
    List (Field × Value) :=
  settings entries ++ (length.map fun ems => (Field.indent, Value.double ems)).toList ++
    (((deciding? .lineNumber entries).map Value.isTrue).map fun b =>
      (Field.lineNumber, Value.bool b)).toList

theorem ofMapping_eq (entries : List (String × Value)) :
    ofMapping entries = (do
      let length ← (deciding? .indent entries).mapM Em.parse
      ofEntries (decidedSettings entries length)) := by
  unfold ofMapping decidedSettings
  simp only [lastValue?_settings]

theorem lastValue?_toList (field other : Field) (value : Option α) (f : α → Value) :
    lastValue? field (value.map fun a => (other, f a)).toList =
      if other = field then value.map f else none := by
  cases value with
  | none => simp [lastValue?]
  | some a => by_cases h : other = field <;> simp [lastValue?, h]

theorem valueOf_decidedSettings (entries : List (String × Value)) (length : Option Binary64)
    (field : Field) :
    valueOf (decidedSettings entries length) field =
      match field with
      | .indent => ((length.map .double).or (deciding? .indent entries)).getD field.default
      | .lineNumber => ((deciding? .lineNumber entries).map fun v => .bool v.isTrue).getD
          field.default
      | _ => (deciding? field entries).getD field.default := by
  unfold decidedSettings
  rw [valueOf_append, valueOf_append, lastValue?_toList, lastValue?_toList]
  unfold valueOf
  rw [lastValue?_settings]
  cases field with
  | indent => cases length <;> rfl
  | lineNumber => cases deciding? .lineNumber entries <;> rfl
  | commentSymbol => rfl
  | lineNumberPunc => rfl

theorem mapM_eq_error_iff {ε β γ : Type} {o : Option β} {f : β → Except ε γ} {fault : ε} :
    o.mapM f = .error fault ↔ ∃ b, o = some b ∧ f b = .error fault := by
  cases o with
  | none => exact ⟨nofun, nofun⟩
  | some b =>
      rw [Option.mapM_some]
      cases hb : f b <;> simp [Functor.map, Except.map, hb]

theorem mapM_eq_ok_iff {ε β γ : Type} {o : Option β} {f : β → Except ε γ} {r : Option γ} :
    o.mapM f = .ok r ↔
      (o = none ∧ r = none) ∨ ∃ b c, o = some b ∧ f b = .ok c ∧ r = some c := by
  cases o with
  | none => simp [pure, Except.pure, eq_comm]
  | some b =>
      rw [Option.mapM_some]
      cases hb : f b <;> simp [Functor.map, Except.map, hb, eq_comm]

/-- The length that decides the indent once it has been read. -/
theorem valueOf_decidedSettings_indent {length : Option Binary64}
    (hlength : (deciding? .indent entries).mapM Em.parse = .ok length) :
    ∃ ems, valueOf (decidedSettings entries length) .indent = .double ems ∧
      ems.isFinite = true ∧ ems.isNegative = false ∧
      ∀ x, (match deciding? .indent entries with
        | none => x = defaultIndent
        | some value => Em.Writes value x) ↔ x = ems := by
  rw [valueOf_decidedSettings]
  rcases mapM_eq_ok_iff.mp hlength with ⟨hdeciding, rfl⟩ | ⟨value, ems, hdeciding, hparse, rfl⟩
  · rw [hdeciding]
    obtain ⟨hfinite, hnegative⟩ := default.indent.isLength
    exact ⟨defaultIndent, rfl, hfinite, hnegative, fun x => Iff.rfl⟩
  · rw [hdeciding]
    obtain ⟨-, -, -, -, -, hfinite, hnegative⟩ := Em.parse_eq_ok_iff.mp hparse
    refine ⟨ems, rfl, hfinite, hnegative, fun x => ?_⟩
    show Em.Writes value x ↔ x = ems
    rw [← Em.parse_eq_ok_iff, hparse, Except.ok.injEq, eq_comm]

/-- A mapping is refused just for the fault of the entry that decides the indent. -/
theorem ofMapping_eq_error_iff {fault : OptionFault} :
    ofMapping entries = .error fault ↔
      ∃ value, deciding? .indent entries = some value ∧ Em.parse value = .error fault := by
  rw [ofMapping_eq, ← mapM_eq_error_iff]
  cases hlength : (deciding? .indent entries).mapM Em.parse with
  | error fault' =>
      show Except.error fault' = _ ↔ _
      rw [Except.error.injEq, Except.error.injEq]
  | ok length =>
      -- the entries are taken as options once the length is read
      obtain ⟨ems, hindent, hfinite, hnegative, -⟩ := valueOf_decidedSettings_indent hlength
      show ofEntries _ = _ ↔ _
      rw [ofEntries_of_length hindent hfinite hnegative]
      exact ⟨nofun, nofun⟩

/-- What a mapping gives goes by the deciding entries. -/
theorem ofMapping_eq_ok_iff {options : Options} :
    ofMapping entries = .ok options ↔ options.DecidedBy entries := by
  rw [ofMapping_eq]
  cases hlength : (deciding? .indent entries).mapM Em.parse with
  | error fault =>
      obtain ⟨value, hdeciding, hparse⟩ := mapM_eq_error_iff.mp hlength
      refine ⟨nofun, ?_⟩
      rintro ⟨⟨ems, -, hems⟩, -, -, -⟩
      rw [hdeciding] at hems
      cases hparse.symm.trans (Em.parse_eq_ok_iff.mpr hems)
  | ok length =>
      obtain ⟨ems, hindent, hfinite, hnegative, hems⟩ := valueOf_decidedSettings_indent hlength
      show ofEntries _ = _ ↔ _
      rw [ofEntries_eq_ok_iff hindent hfinite hnegative]
      simp only [valueOf_decidedSettings]
      constructor
      · rintro ⟨hvalue, hcomment, hpunc, hnumber⟩
        exact ⟨⟨ems, hvalue, (hems ems).mpr rfl⟩, hcomment, hpunc, hnumber⟩
      · rintro ⟨⟨x, hvalue, hx⟩, hcomment, hpunc, hnumber⟩
        obtain rfl := (hems x).mp hx
        exact ⟨hvalue, hcomment, hpunc, hnumber⟩

/-- A mapping that is refused is refused as a faulty configuration, unless the entry that decides
the indent cannot be quoted. -/
theorem ofMapping_error_cases {fault : OptionFault} (h : ofMapping entries = .error fault) :
    ∃ value, deciding? .indent entries = some value ∧
      ((value.HoldsLong ∧ fault = .unquotable) ∨
        (¬value.HoldsLong ∧ (Failure.options fault).report? =
          some (.make .configuration fault.message none none))) := by
  obtain ⟨value, hdeciding, hparse⟩ := ofMapping_eq_error_iff.mp h
  exact ⟨value, hdeciding, Em.parse_error_cases hparse⟩

/-- The entry that decides the indent of options can be quoted, since it is a text. -/
theorem not_holdsLong_of_ofMapping {options : Options} {value : Value}
    (h : ofMapping entries = .ok options) (hdeciding : deciding? .indent entries = some value) :
    ¬value.HoldsLong := by
  intro hlong
  cases hparse : Em.parse value with
  | ok ems =>
      obtain ⟨text, number, rfl, -⟩ := Em.parse_eq_ok_iff.mp hparse
      cases hlong
  | error fault =>
      have hrefused := ofMapping_eq_error_iff.mpr ⟨value, hdeciding, hparse⟩
      cases h.symm.trans hrefused

/-! ## What does not matter -/

/-- One change to a mapping that leaves every option as it is. An entry is left out whose
name is that of no option, that is absent or the empty text, or that stands in front of one
that sets the same option; an option is given its other name; or two entries next to each
other that are not of one option change places. -/
inductive Immaterial : List (String × Value) → List (String × Value) → Prop where
  | unknown {front back name value} (h : ∀ field : Field, ¬field.HasName name) :
      Immaterial (front ++ (name, value) :: back) (front ++ back)
  | void {front back name value} (h : isVoid value = true) :
      Immaterial (front ++ (name, value) :: back) (front ++ back)
  | shadowed {front back name value} {field : Field} (h : field.HasName name)
      (hlater : ∃ entry ∈ back, field.IsSetBy entry) :
      Immaterial (front ++ (name, value) :: back) (front ++ back)
  | respelled {front back name other value} {field : Field} (h : field.HasName name)
      (hother : field.HasName other) :
      Immaterial (front ++ (name, value) :: back) (front ++ (other, value) :: back)
  | swapped {front back name other value w}
      (h : ∀ field : Field, field.HasName name → ¬field.HasName other) :
      Immaterial (front ++ (name, value) :: (other, w) :: back)
        (front ++ (other, w) :: (name, value) :: back)

/-- No change of these changes what decides an option. -/
theorem Immaterial.deciding?_eq (h : Immaterial entries others) (field : Field) :
    deciding? field others = deciding? field entries := by
  cases h with
  | unknown h =>
      have hunset : ∀ value, ¬field.IsSetBy (_, value) := fun value hset => h field hset.1
      rw [deciding?_append, deciding?_append, deciding?_cons, deciding?_singleton,
        if_neg (hunset _), Option.or_none]
  | @void front back name value h =>
      have hunset : ¬field.IsSetBy (name, value) := fun hset =>
        Bool.false_ne_true (hset.2.symm.trans h)
      rw [deciding?_append, deciding?_append, deciding?_cons, deciding?_singleton,
        if_neg hunset, Option.or_none]
  | @shadowed front back name value other h hlater =>
      have hback : (deciding? field back).or (deciding? field [(name, value)]) =
          deciding? field back := by
        by_cases hfield : field = other
        · -- an entry behind this one decides the option
          subst hfield
          cases hdeciding : deciding? field back with
          | some _ => rfl
          | none =>
              obtain ⟨entry, hentry, hset⟩ := hlater
              exact absurd hset (deciding?_eq_none_iff.mp hdeciding entry hentry)
        · have hunset : ¬field.IsSetBy (name, value) := fun hset =>
            hfield (hset.1.unique h)
          rw [deciding?_singleton, if_neg hunset, Option.or_none]
      rw [deciding?_append, deciding?_append, deciding?_cons, hback]
  | @respelled front back name other value given h hother =>
      have hset : field.IsSetBy (name, value) ↔ field.IsSetBy (other, value) :=
        and_congr_left' ⟨fun hname => hname.unique h ▸ hother, fun hname =>
          hname.unique hother ▸ h⟩
      rw [deciding?_append, deciding?_append, deciding?_cons, deciding?_cons _ _ back,
        deciding?_singleton, deciding?_singleton]
      simp only [hset]
  | @swapped front back name other value w h =>
      have hswap : (deciding? field [(name, value)]).or (deciding? field [(other, w)]) =
          (deciding? field [(other, w)]).or (deciding? field [(name, value)]) := by
        rw [deciding?_singleton, deciding?_singleton]
        by_cases hname : field.HasName name
        · have hunset : ¬field.IsSetBy (other, w) := fun hset => h field hname hset.1
          rw [if_neg hunset, Option.or_none, Option.none_or]
        · have hunset : ¬field.IsSetBy (name, value) := fun hset => hname hset.1
          rw [if_neg hunset, Option.or_none, Option.none_or]
      rw [deciding?_append, deciding?_append]
      simp only [deciding?_cons _ _ (_ :: _), deciding?_cons _ _ back, Option.or_assoc, hswap]

/-- Mappings with the same deciding values give the same. -/
theorem ofMapping_congr (h : ∀ field, deciding? field entries = deciding? field others) :
    ofMapping entries = ofMapping others := by
  cases hothers : ofMapping others with
  | error fault =>
      rw [ofMapping_eq_error_iff] at hothers ⊢
      rwa [h]
  | ok options =>
      rw [ofMapping_eq_ok_iff] at hothers ⊢
      exact ⟨by rw [h]; exact hothers.indent, by rw [h]; exact hothers.commentSymbol,
        by rw [h]; exact hothers.lineNumberPunc, by rw [h]; exact hothers.lineNumber⟩

/-- Any number of these changes, made or taken back, leaves the outcome as it is. -/
theorem ofMapping_eq_of_immaterial (h : Relation.EqvGen Immaterial entries others) :
    ofMapping others = ofMapping entries := by
  induction h with
  | rel l m h => exact ofMapping_congr h.deciding?_eq
  | refl l => rfl
  | symm l m _ ih => exact ih.symm
  | trans l m n _ _ ih₁ ih₂ => exact ih₂.trans ih₁

/-- What decides an option is the last entry that sets it. A mapping gives the options that its
deciding entries write, all with a finite indent that is not negative, unless the entry that
decides the indent is not a length: then it is refused for the fault of that entry, and as a
faulty configuration where the entry can be quoted. Entries that decide nothing, the spelling of
names and the order of entries of different options do not matter. -/
theorem ofMapping_decided (entries : List (String × Value)) :
    (∀ field value, deciding? field entries = some value ↔
      ∃ front name back, entries = front ++ (name, value) :: back ∧
        field.IsSetBy (name, value) ∧ ∀ entry ∈ back, ¬field.IsSetBy entry) ∧
    (∀ options, ofMapping entries = .ok options ↔ options.DecidedBy entries) ∧
    (∀ fault, ofMapping entries = .error fault ↔
      ∃ value, deciding? .indent entries = some value ∧ Em.parse value = .error fault) ∧
    ((∃ fault, ofMapping entries = .error fault) ↔
      ∃ value, deciding? .indent entries = some value ∧ ∀ ems, ¬Em.Writes value ems) ∧
    (∀ fault, ofMapping entries = .error fault →
      (∀ value, deciding? .indent entries = some value → ¬value.HoldsLong) →
      (Failure.options fault).report? =
        some (.make .configuration fault.message none none)) ∧
    (∀ options, ofMapping entries = .ok options →
      options.indent.toBinary64.isFinite = true ∧
        options.indent.toBinary64.isNegative = false) ∧
    ∀ others, Relation.EqvGen Immaterial entries others →
      ofMapping others = ofMapping entries := by
  refine ⟨fun _ _ => deciding?_eq_some_iff, fun _ => ofMapping_eq_ok_iff,
    fun _ => ofMapping_eq_error_iff, ?_, fun fault h hshort => ?_,
    fun options _ => options.indent.isLength, fun _ => ofMapping_eq_of_immaterial⟩
  · simp only [ofMapping_eq_error_iff, ← Em.parse_fails_iff]
    constructor
    · rintro ⟨fault, value, hdeciding, hparse⟩
      exact ⟨value, hdeciding, fault, hparse⟩
    · rintro ⟨value, hdeciding, fault, hparse⟩
      exact ⟨fault, value, hdeciding, hparse⟩
  · obtain ⟨value, hdeciding, ⟨hlong, -⟩ | ⟨-, hreport⟩⟩ := ofMapping_error_cases h
    · exact absurd hlong (hshort value hdeciding)
    · exact hreport

/-- Not just the values that are no lengths are refused as a faulty configuration. A number with
one digit too many is refused in another way. A text with a separator in front of the unit is
refused so, although it would be a length if the blanks around a numeral were those around a
length. -/
theorem refused_other_than_lengths :
    (¬∀ entries, (∃ fault, ofMapping entries = .error fault ∧ (Failure.options fault).report? =
        some (.make .configuration fault.message none none)) ↔
      ∃ value, deciding? .indent entries = some value ∧ ∀ ems, ¬Em.Writes value ems) ∧
    ∃ fault number, ofMapping [("indentSize", .text "1\u001cem")] = .error fault ∧
      (Failure.options fault).report? =
        some (.make .configuration fault.message none none) ∧
      trim isBlank "1\u001cem".toList = number ++ Em.unit ∧
      Literal.read? (trim isBlank number) = some (.ofDecimal false 1 0) := by
  constructor
  · intro h
    have hlong : (Value.int (10 ^ Value.digitLimit : Nat)).HoldsLong :=
      .int (Nat.le_of_eq (Int.natAbs_natCast _).symm)
    have hdeciding : deciding? .indent [("indentSize", .int (10 ^ Value.digitLimit : Nat))] =
        some (.int (10 ^ Value.digitLimit : Nat)) := rfl
    have hnolength : ∀ ems, ¬Em.Writes (.int (10 ^ Value.digitLimit : Nat)) ems := by
      rintro ems ⟨text, number, htext, -⟩
      cases htext
    obtain ⟨fault, hrefused, hreport⟩ := (h _).mpr ⟨_, hdeciding, hnolength⟩
    obtain ⟨value, hvalue, ⟨-, rfl⟩ | ⟨hshort, -⟩⟩ := ofMapping_error_cases hrefused
    · cases hreport
    · obtain rfl := Option.some.inj (hdeciding.symm.trans hvalue)
      exact hshort hlong
  · exact ⟨.notANumber "1\u001cem", ['1', '\u001c'], rfl, rfl, by decide, rfl⟩

end Options

end AlgoBox
