import AlgoBox.Text.Markup
import Mathlib.Data.List.Basic

/-!
# Character references

Escaped text is read back reference by reference (`decode`). The passes that escape a text
do together what replacing each character by itself would do (`escapeChars_eq_flatMap`),
so what was escaped is decoded to what it was, whatever stands behind it.

Besides escaped characters there are ampersands that are written as they are. Such an
ampersand is read as one unless the text behind it goes on like a reference
(`decode_markup_eq_iff`).
-/

namespace AlgoBox.Text

variable {c : Char} {s rest name : List Char}

/-! ## Decoding -/

/-- A character reference: what stands behind the ampersand, the semicolon included, and the
character that it stands for. -/
structure Reference where
  name : List Char
  char : Char

/-- The references that running text is escaped with. -/
def references : List Reference :=
  [⟨"amp;".toList, '&'⟩, ⟨"lt;".toList, '<'⟩, ⟨"gt;".toList, '>'⟩]

/-- The reference that a text goes on with behind an ampersand. -/
def reference? (table : List Reference) (s : List Char) : Option Reference :=
  table.find? fun r => r.name.isPrefixOf s

/-- Reads a text with references, where a number of characters at its start belong to a
reference that has been read. -/
def decodeFrom (table : List Reference) : Nat → List Char → List Char
  | _, [] => []
  | skip + 1, _ :: rest => decodeFrom table skip rest
  | 0, c :: rest =>
    match if c = '&' then reference? table rest else none with
    | some r => r.char :: decodeFrom table r.name.length rest
    | none => c :: decodeFrom table 0 rest

/-- Reads a text with references. -/
def decode (table : List Reference) (s : List Char) : List Char := decodeFrom table 0 s

example : decode references "a &lt; &amp;amp; & b".toList = "a < &amp; & b".toList := by
  decide +kernel

variable {table : List Reference}

theorem decode_of_ne (h : c ≠ '&') (rest : List Char) :
    decode table (c :: rest) = c :: decode table rest := by
  unfold decode
  rw [decodeFrom, if_neg h]

theorem decode_ampersand_of_none (h : reference? table rest = none) :
    decode table ('&' :: rest) = '&' :: decode table rest := by
  unfold decode
  rw [decodeFrom, if_pos rfl, h]

theorem decodeFrom_length (s rest : List Char) :
    decodeFrom table s.length (s ++ rest) = decode table rest := by
  induction s with
  | nil => rfl
  | cons c s ih => exact ih

theorem decode_ampersand_of_some {r : Reference}
    (h : reference? table (r.name ++ rest) = some r) :
    decode table ('&' :: (r.name ++ rest)) = r.char :: decode table rest := by
  rw [← decodeFrom_length r.name rest]
  unfold decode
  rw [decodeFrom, if_pos rfl, h]

/-! ## Escaping character by character -/

/-- A character as it is escaped. -/
def escapeChar (c : Char) : List Char :=
  if c = '&' then "&amp;".toList
  else if c = '<' then "&lt;".toList
  else if c = '>' then "&gt;".toList
  else [c]

/-- No pass of escaping touches what an earlier one has written. -/
theorem escapeChars_eq_flatMap (s : List Char) : escapeChars s = s.flatMap escapeChar := by
  unfold escapeChars replaceChar
  rw [List.flatMap_assoc, List.flatMap_assoc]
  refine List.flatMap_congr fun c _ => ?_
  unfold escapeChar
  by_cases hamp : c = '&'
  · subst hamp
    rfl
  · by_cases hlt : c = '<'
    · subst hlt
      rfl
    · simp [hamp, hlt]

/-- An escaped character is decoded to itself in front of any text. -/
theorem decode_escapeChar (c : Char) (rest : List Char) :
    decode references (escapeChar c ++ rest) = c :: decode references rest := by
  unfold escapeChar
  split
  · subst c
    rfl
  · split
    · subst c
      rfl
    · split
      · subst c
        rfl
      · exact decode_of_ne ‹_› rest

/-! ## Ampersands as they are -/

/-- A character in markup, escaped where it needs to be, or an ampersand that is written as
it is. -/
inductive Glyph where
  | escaped (c : Char)
  | ampersand

namespace Glyph

/-- The character that is meant. -/
def char : Glyph → Char
  | escaped c => c
  | ampersand => '&'

/-- The markup. -/
def markup : Glyph → List Char
  | escaped c => escapeChar c
  | ampersand => ['&']

end Glyph

/-- A text goes on like the name of a reference. -/
def BeginsReference (s : List Char) : Prop := ∃ r ∈ references, r.name <+: s

/-- An ampersand that is written as it is stands in front of a text that goes on like the
name of a reference. -/
def Misread (glyphs : List Glyph) : Prop :=
  ∃ front back, glyphs = front ++ .ampersand :: back ∧ BeginsReference (back.map Glyph.char)

variable {glyphs : List Glyph}

theorem not_misread_nil : ¬Misread [] := by
  rintro ⟨front, back, hglyphs, -⟩
  cases front <;> cases hglyphs

theorem misread_cons_escaped : Misread (.escaped c :: glyphs) ↔ Misread glyphs := by
  constructor
  · rintro ⟨front, back, hglyphs, hbegins⟩
    cases front with
    | nil => cases hglyphs
    | cons glyph front => exact ⟨front, back, (List.cons.inj hglyphs).2, hbegins⟩
  · rintro ⟨front, back, rfl, hbegins⟩
    exact ⟨.escaped c :: front, back, rfl, hbegins⟩

theorem misread_cons_ampersand :
    Misread (.ampersand :: glyphs) ↔ BeginsReference (glyphs.map Glyph.char) ∨ Misread glyphs := by
  constructor
  · rintro ⟨front, back, hglyphs, hbegins⟩
    cases front with
    | nil =>
        cases hglyphs
        exact .inl hbegins
    | cons glyph front => exact .inr ⟨front, back, (List.cons.inj hglyphs).2, hbegins⟩
  · rintro (hbegins | ⟨front, back, rfl, hbegins⟩)
    · exact ⟨[], glyphs, rfl, hbegins⟩
    · exact ⟨.ampersand :: front, back, rfl, hbegins⟩

instance (s : List Char) : Decidable (BeginsReference s) :=
  inferInstanceAs (Decidable (∃ r ∈ references, r.name <+: s))

/-- Looks at each ampersand that is written as it is. -/
instance decidableMisread : (glyphs : List Glyph) → Decidable (Misread glyphs)
  | [] => isFalse not_misread_nil
  | .escaped _ :: rest =>
    have := decidableMisread rest
    decidable_of_iff _ misread_cons_escaped.symm
  | .ampersand :: rest =>
    have := decidableMisread rest
    decidable_of_iff _ misread_cons_ampersand.symm

/-- The characters that names of references are made of. -/
def IsNameChar (c : Char) : Prop := c ≠ '&' ∧ c ≠ '<' ∧ c ≠ '>'

instance : DecidablePred IsNameChar := fun _ => inferInstanceAs (Decidable (_ ∧ _ ∧ _))

theorem isNameChar_of_mem {r : Reference} (h : r ∈ references) : ∀ c ∈ r.name, IsNameChar c := by
  have hall : ∀ r ∈ references, (r.name.all fun c => decide (IsNameChar c)) = true := by decide
  exact fun c hc => of_decide_eq_true (List.all_eq_true.1 (hall r h) c hc)

theorem escapeChar_of_isNameChar (h : IsNameChar c) : escapeChar c = [c] := by
  obtain ⟨hamp, hlt, hgt⟩ := h
  unfold escapeChar
  rw [if_neg hamp, if_neg hlt, if_neg hgt]

/-- Whatever is no character of names is escaped with an ampersand in front. -/
theorem escapeChar_of_not_isNameChar (h : ¬IsNameChar c) : ∃ more, escapeChar c = '&' :: more := by
  unfold escapeChar
  split
  · exact ⟨_, rfl⟩
  · split
    · exact ⟨_, rfl⟩
    · split
      · exact ⟨_, rfl⟩
      · exact absurd ⟨‹_›, ‹_›, ‹_›⟩ h

/-- Markup goes on like a name only where that name has been written. -/
theorem exists_of_prefix_markup (hname : ∀ c ∈ name, IsNameChar c)
    (h : name <+: glyphs.flatMap Glyph.markup) : ∃ more, glyphs = name.map .escaped ++ more := by
  induction name generalizing glyphs with
  | nil => exact ⟨glyphs, rfl⟩
  | cons c name ih =>
      obtain ⟨hc, hrest⟩ := List.forall_mem_cons.1 hname
      have hamp : ∀ {more}, ¬(c :: name <+: '&' :: more) := fun h =>
        hc.1 (List.cons_prefix_cons.1 h).1
      cases glyphs with
      | nil => cases List.prefix_nil.1 h
      | cons glyph glyphs =>
          rw [List.flatMap_cons] at h
          cases glyph with
          | ampersand => exact absurd h hamp
          | escaped d =>
              by_cases hd : IsNameChar d
              · rw [Glyph.markup, escapeChar_of_isNameChar hd] at h
                obtain ⟨rfl, htail⟩ := List.cons_prefix_cons.1 h
                obtain ⟨more, rfl⟩ := ih hrest htail
                exact ⟨more, rfl⟩
              · obtain ⟨more, hmore⟩ := escapeChar_of_not_isNameChar hd
                rw [Glyph.markup, hmore] at h
                exact absurd h hamp

theorem exists_of_prefix_char (hname : ∀ c ∈ name, IsNameChar c)
    (h : name <+: glyphs.map Glyph.char) : ∃ more, glyphs = name.map .escaped ++ more := by
  induction name generalizing glyphs with
  | nil => exact ⟨glyphs, rfl⟩
  | cons c name ih =>
      obtain ⟨hc, hrest⟩ := List.forall_mem_cons.1 hname
      cases glyphs with
      | nil => cases List.prefix_nil.1 h
      | cons glyph glyphs =>
          obtain ⟨rfl, htail⟩ := List.cons_prefix_cons.1 h
          obtain ⟨more, rfl⟩ := ih hrest htail
          cases glyph with
          | escaped d => exact ⟨more, rfl⟩
          | ampersand => exact absurd rfl hc.1

theorem flatMap_markup_escaped (s : List Char) :
    (s.map Glyph.escaped).flatMap Glyph.markup = s.flatMap escapeChar :=
  List.flatMap_map ..

theorem flatMap_escapeChar_of_isNameChar (h : ∀ c ∈ s, IsNameChar c) :
    s.flatMap escapeChar = s := by
  have hchars : s.flatMap escapeChar = s.flatMap fun c => [c] :=
    List.flatMap_congr fun c hc => escapeChar_of_isNameChar (h c hc)
  rw [hchars, List.flatMap_singleton']

theorem reference?_eq_some {r : Reference} (h : reference? table s = some r) :
    r ∈ table ∧ r.name <+: s := by
  unfold reference? at h
  have hfound := List.find?_some h
  exact ⟨List.mem_of_find?_eq_some h, List.isPrefixOf_iff_prefix.1 hfound⟩

/-- The markup behind an ampersand goes on like a reference just if the text does. -/
theorem reference?_markup_isSome :
    (reference? references (glyphs.flatMap Glyph.markup)).isSome = true ↔
      BeginsReference (glyphs.map Glyph.char) := by
  unfold reference? BeginsReference
  rw [List.find?_isSome]
  refine exists_congr fun r => and_congr_right fun hr => ?_
  have hname := isNameChar_of_mem hr
  rw [List.isPrefixOf_iff_prefix]
  constructor
  · intro h
    obtain ⟨more, rfl⟩ := exists_of_prefix_markup hname h
    refine ⟨more.map Glyph.char, ?_⟩
    rw [List.map_append, List.map_map]
    exact congrArg (· ++ _) (List.map_id _).symm
  · intro h
    obtain ⟨more, rfl⟩ := exists_of_prefix_char hname h
    refine ⟨more.flatMap Glyph.markup, ?_⟩
    rw [List.flatMap_append, flatMap_markup_escaped, flatMap_escapeChar_of_isNameChar hname]

/-- A reference that is read behind an ampersand takes its name out of the text. -/
theorem decode_ampersand_markup {r : Reference}
    (h : reference? references (glyphs.flatMap Glyph.markup) = some r) :
    ∃ more : List Glyph, glyphs.length = r.name.length + more.length ∧ r.name ≠ [] ∧
      decode references ('&' :: glyphs.flatMap Glyph.markup) =
        r.char :: decode references (more.flatMap Glyph.markup) := by
  obtain ⟨hr, hprefix⟩ := reference?_eq_some h
  have hname := isNameChar_of_mem hr
  have hne : ∀ r ∈ references, r.name ≠ [] := by decide
  obtain ⟨more, rfl⟩ := exists_of_prefix_markup hname hprefix
  refine ⟨more, by simp, hne r hr, ?_⟩
  rw [List.flatMap_append, flatMap_markup_escaped, flatMap_escapeChar_of_isNameChar hname] at h ⊢
  exact decode_ampersand_of_some h

/-- Decoding gives at most as many characters as were meant. -/
theorem length_decode_markup_le (glyphs : List Glyph) :
    (decode references (glyphs.flatMap Glyph.markup)).length ≤ glyphs.length := by
  induction hlength : glyphs.length using Nat.strongRecOn generalizing glyphs with
  | _ n ih =>
      subst hlength
      cases glyphs with
      | nil => exact Nat.le_refl 0
      | cons glyph glyphs =>
          have hrest := ih glyphs.length (Nat.lt_succ_self _) glyphs rfl
          rw [List.flatMap_cons]
          cases glyph with
          | escaped c =>
              rw [Glyph.markup, decode_escapeChar]
              exact Nat.succ_le_succ hrest
          | ampersand =>
              cases hreference : reference? references (glyphs.flatMap Glyph.markup) with
              | none =>
                  show (decode references ('&' :: glyphs.flatMap Glyph.markup)).length ≤ _
                  rw [decode_ampersand_of_none hreference]
                  exact Nat.succ_le_succ hrest
              | some r =>
                  -- the name is skipped, so what is left is shorter than the rest
                  obtain ⟨more, hlength, -, hdecode⟩ := decode_ampersand_markup hreference
                  have hmore := ih more.length (by simp only [List.length_cons]; omega) more rfl
                  show (decode references ('&' :: glyphs.flatMap Glyph.markup)).length ≤ _
                  rw [hdecode, List.length_cons, List.length_cons]
                  omega

/-- Markup is decoded to what is meant, unless an ampersand in it is misread. -/
theorem decode_markup_eq_iff (glyphs : List Glyph) :
    decode references (glyphs.flatMap Glyph.markup) = glyphs.map Glyph.char ↔
      ¬Misread glyphs := by
  induction glyphs with
  | nil => exact iff_of_true rfl not_misread_nil
  | cons glyph glyphs ih =>
      rw [List.flatMap_cons, List.map_cons]
      cases glyph with
      | escaped c =>
          rw [Glyph.markup, decode_escapeChar, misread_cons_escaped, ← ih]
          exact List.cons_inj_right c
      | ampersand =>
          rw [misread_cons_ampersand, ← reference?_markup_isSome]
          show decode references ('&' :: glyphs.flatMap Glyph.markup) = '&' :: _ ↔ _
          cases hreference : reference? references (glyphs.flatMap Glyph.markup) with
          | none =>
              rw [decode_ampersand_of_none hreference, List.cons_inj_right, ih]
              simp
          | some r =>
              refine iff_of_false (fun h => ?_) fun h => h (.inl rfl)
              -- too few characters come out
              obtain ⟨more, hlength, hne, hdecode⟩ := decode_ampersand_markup hreference
              have hle := length_decode_markup_le more
              have hpos := List.length_pos_iff.2 hne
              have heq := congrArg List.length (hdecode.symm.trans h)
              simp only [List.length_cons, List.length_map] at heq
              omega

end AlgoBox.Text
