import AlgoBox.Proofs.References
import Mathlib.Data.List.Induction

/-!
# Escaping character by character

A text is escaped in passes over the whole of it, one for each reference of a table. A pass
goes over what the passes before it have written, so their order matters: no reference may
bring in a character that a later pass replaces. Where this is so, the passes do together
what replacing each character by itself would do (`passes_eq_flatMap`).

Both ways of escaping go by such a table, running text and bodies of formulas. From its form
it follows for both that they work piece by piece, that all reserved characters of their
output belong to references of theirs, and that nothing is lost (`escapes_by_references`).
-/

namespace AlgoBox.Text

variable {table : List Reference} {c : Char} {s : List Char}

/-! ## Tables of references -/

/-- The references that the body of a formula is escaped with. -/
def quotedReferences : List Reference :=
  references ++ [⟨"quot;".toList, '"'⟩, ⟨"#x27;".toList, '\''⟩]

/-- One pass for each reference, the first one first. -/
def passes (table : List Reference) (s : List Char) : List Char :=
  table.foldl (fun s r => replaceChar r.char ('&' :: r.name) s) s

/-- A character by its reference, or as it is if it has none. -/
def substitute (table : List Reference) (c : Char) : List Char :=
  match table.find? (·.char = c) with
  | some r => '&' :: r.name
  | none => [c]

/-- The pass of a later reference finds nothing to replace in what an earlier one has
written, and nothing that the earlier one has left. -/
def Undisturbed (earlier later : Reference) : Prop :=
  later.char ∉ '&' :: earlier.name ∧ later.char ≠ earlier.char

instance : DecidableRel Undisturbed := fun _ _ => inferInstanceAs (Decidable (_ ∧ _))

/-- A table by which a text can be escaped so that it is read back: the reserved characters
have references, no name of a reference holds one of them, and a reference is known by its
name, whatever stands behind. -/
structure IsEscapeTable (table : List Reference) : Prop where
  reserved : ∀ c, ¬IsNameChar c → ∃ r ∈ table, r.char = c
  names : ∀ r ∈ table, ∀ c ∈ r.name, IsNameChar c
  known : ∀ r ∈ table, ∀ rest, reference? table (r.name ++ rest) = some r

theorem substitute_eq_of_some {r : Reference} (h : table.find? (·.char = c) = some r) :
    substitute table c = '&' :: r.name := by
  unfold substitute
  rw [h]

theorem substitute_eq_of_none (h : table.find? (·.char = c) = none) :
    substitute table c = [c] := by
  unfold substitute
  rw [h]

theorem mem_of_find? {r : Reference} (h : table.find? (·.char = c) = some r) :
    r ∈ table ∧ r.char = c :=
  ⟨List.mem_of_find?_eq_some h, by simpa using List.find?_some h⟩

/-! ## Passes -/

/-- A pass for a character that does not occur changes nothing. -/
theorem replaceChar_of_not_mem {replacement : List Char} (h : c ∉ s) :
    replaceChar c replacement s = s := by
  have hsame : s.flatMap (fun x => if x = c then replacement else [x]) = s.flatMap fun x => [x] :=
    List.flatMap_congr fun x hx => if_neg fun (heq : x = c) => h (heq ▸ hx)
  unfold replaceChar
  rw [hsame, List.flatMap_singleton']

/-- A pass behind the others replaces its character where none of them did. -/
theorem replaceChar_substitute {r : Reference} (h : ∀ earlier ∈ table, Undisturbed earlier r)
    (c : Char) :
    replaceChar r.char ('&' :: r.name) (substitute table c) = substitute (table ++ [r]) c := by
  cases hfind : table.find? (·.char = c) with
  | some earlier =>
      have hlast : (table ++ [r]).find? (·.char = c) = some earlier := by
        rw [List.find?_append, hfind, Option.some_or]
      rw [substitute_eq_of_some hfind, substitute_eq_of_some hlast,
        replaceChar_of_not_mem (h earlier (mem_of_find? hfind).1).1]
  | none =>
      have hlast : (table ++ [r]).find? (·.char = c) = [r].find? (·.char = c) := by
        rw [List.find?_append, hfind, Option.none_or]
      unfold substitute
      rw [hfind, hlast]
      by_cases hc : r.char = c
      · simp [replaceChar, hc]
      · simp [replaceChar, hc, Ne.symm hc]

/-- Passes that do not disturb each other replace each character by itself. -/
theorem passes_eq_flatMap (h : table.Pairwise Undisturbed) (s : List Char) :
    passes table s = s.flatMap (substitute table) := by
  induction table using List.reverseRecOn with
  | nil => exact (List.flatMap_singleton' s).symm
  | append_singleton table r ih =>
      obtain ⟨htable, -, hlast⟩ := List.pairwise_append.1 h
      have hr : ∀ earlier ∈ table, Undisturbed earlier r := fun earlier hearlier =>
        hlast earlier hearlier r (List.mem_singleton_self r)
      have hpass : passes (table ++ [r]) s = replaceChar r.char ('&' :: r.name) (passes table s) :=
        List.foldl_append
      rw [hpass, ih htable]
      unfold replaceChar
      rw [List.flatMap_assoc]
      exact List.flatMap_congr fun c _ => replaceChar_substitute hr c

/-! ## What a table gives -/

namespace IsEscapeTable

/-- Only characters that are not reserved are left as they are. -/
theorem isNameChar_of_none (h : IsEscapeTable table) (hfind : table.find? (·.char = c) = none) :
    IsNameChar c := by
  by_contra hreserved
  obtain ⟨r, hr, hchar⟩ := h.reserved c hreserved
  exact absurd (List.find?_eq_none.1 hfind r hr) (by simpa using hchar)

theorem decode_substitute (h : IsEscapeTable table) (c : Char) (rest : List Char) :
    decode table (substitute table c ++ rest) = c :: decode table rest := by
  cases hfind : table.find? (·.char = c) with
  | some r =>
      obtain ⟨hr, rfl⟩ := mem_of_find? hfind
      rw [substitute_eq_of_some hfind]
      exact decode_ampersand_of_some (h.known r hr rest)
  | none =>
      rw [substitute_eq_of_none hfind]
      exact decode_of_ne (h.isNameChar_of_none hfind).1 rest

theorem decode_flatMap (h : IsEscapeTable table) (s : List Char) :
    decode table (s.flatMap (substitute table)) = s := by
  induction s with
  | nil => rfl
  | cons c s ih => rw [List.flatMap_cons, h.decode_substitute, ih]

theorem not_mem_flatMap (h : IsEscapeTable table) (hc : c = '<' ∨ c = '>') (s : List Char) :
    c ∉ s.flatMap (substitute table) := by
  intro hmem
  have hname : ¬IsNameChar c := by rcases hc with rfl | rfl <;> decide
  obtain ⟨d, -, hd⟩ := List.mem_flatMap.1 hmem
  cases hfind : table.find? (·.char = d) with
  | some r =>
      rw [substitute_eq_of_some hfind] at hd
      rcases List.mem_cons.1 hd with rfl | hd
      · rcases hc with hamp | hamp <;> cases hamp
      · exact hname (h.names r (mem_of_find? hfind).1 c hd)
  | none =>
      rw [substitute_eq_of_none hfind] at hd
      obtain rfl := List.mem_singleton.1 hd
      exact hname (h.isNameChar_of_none hfind)

/-- An ampersand of the output begins the reference of a character of the text. -/
theorem exists_of_ampersand (h : IsEscapeTable table) {before behind : List Char}
    (hsplit : s.flatMap (substitute table) = before ++ '&' :: behind) :
    ∃ front back, ∃ r ∈ table, s = front ++ r.char :: back ∧
      before = front.flatMap (substitute table) ∧
      behind = r.name ++ back.flatMap (substitute table) := by
  induction s generalizing before with
  | nil => cases before <;> cases hsplit
  | cons c s ih =>
      -- the ampersand is behind the first character, unless it begins its reference
      have hlater : ∀ before', before = substitute table c ++ before' →
          s.flatMap (substitute table) = before' ++ '&' :: behind →
          ∃ front back, ∃ r ∈ table, c :: s = front ++ r.char :: back ∧
            before = front.flatMap (substitute table) ∧
            behind = r.name ++ back.flatMap (substitute table) := by
        rintro before' rfl hrest
        obtain ⟨front, back, r, hr, rfl, rfl, rfl⟩ := ih hrest
        exact ⟨c :: front, back, r, hr, rfl, rfl, rfl⟩
      rw [List.flatMap_cons] at hsplit
      cases hfind : table.find? (·.char = c) with
      | none =>
          rw [substitute_eq_of_none hfind] at hsplit hlater
          cases before with
          | nil => exact absurd (List.cons.inj hsplit).1 (h.isNameChar_of_none hfind).1
          | cons d before =>
              obtain ⟨rfl, hrest⟩ := List.cons.inj hsplit
              exact hlater before rfl hrest
      | some r =>
          obtain ⟨hr, rfl⟩ := mem_of_find? hfind
          rw [substitute_eq_of_some hfind] at hsplit hlater
          cases before with
          | nil => exact ⟨[], s, r, hr, rfl, rfl, (List.cons.inj hsplit).2.symm⟩
          | cons d before =>
              obtain ⟨rfl, hrest⟩ := List.cons.inj hsplit
              rcases List.append_eq_append_iff.1 hrest with
                ⟨more, rfl, hmore⟩ | ⟨more, hname, hmore⟩
              · exact hlater more rfl hmore
              · -- the name of a reference holds no ampersand
                cases more with
                | nil => exact hlater [] (by rw [hname]; simp) hmore.symm
                | cons e more =>
                    obtain ⟨rfl, -⟩ := List.cons.inj hmore
                    have hmem : '&' ∈ r.name := hname ▸ List.mem_append_right _ List.mem_cons_self
                    exact absurd rfl (h.names r hr '&' hmem).1

end IsEscapeTable

/-! ## The two ways of escaping -/

/-- A text is escaped by a table: each character is replaced by itself, so that pieces of a
text can be escaped one by one; there is no angle bracket in the output, and each ampersand of
it begins the reference of a character; the output is read back, and differs for different
texts. -/
structure EscapesBy (table : List Reference) (escape : String → String) : Prop where
  substitutes : ∀ s, (escape s).toList = s.toList.flatMap (substitute table)
  append : ∀ s t, escape (s ++ t) = escape s ++ escape t
  brackets : ∀ s, '<' ∉ (escape s).toList ∧ '>' ∉ (escape s).toList
  ampersands : ∀ s before behind, (escape s).toList = before ++ '&' :: behind →
    ∃ front back, ∃ r ∈ table, s.toList = front ++ r.char :: back ∧
      before = front.flatMap (substitute table) ∧
      behind = r.name ++ back.flatMap (substitute table)
  decodes : ∀ s, decode table (escape s).toList = s.toList
  injective : Function.Injective escape

/-- Escaping in passes by a table is escaping by the table. -/
theorem escapesBy_of_passes {escape : String → String} (htable : IsEscapeTable table)
    (horder : table.Pairwise Undisturbed)
    (h : ∀ s, (escape s).toList = passes table s.toList) : EscapesBy table escape := by
  have hsubstitutes : ∀ s, (escape s).toList = s.toList.flatMap (substitute table) := fun s =>
    (h s).trans (passes_eq_flatMap horder s.toList)
  have hdecodes : ∀ s, decode table (escape s).toList = s.toList := fun s => by
    rw [hsubstitutes, htable.decode_flatMap]
  refine ⟨hsubstitutes, fun s t => ?_, fun s => ?_, fun s before behind hsplit => ?_, hdecodes,
    fun s t hsame => ?_⟩
  · apply String.toList_injective
    rw [String.toList_append, hsubstitutes, hsubstitutes, hsubstitutes, String.toList_append,
      List.flatMap_append]
  · rw [hsubstitutes]
    exact ⟨htable.not_mem_flatMap (.inl rfl) _, htable.not_mem_flatMap (.inr rfl) _⟩
  · exact htable.exists_of_ampersand ((hsubstitutes s).symm.trans hsplit)
  · apply String.toList_injective
    rw [← hdecodes s, ← hdecodes t, hsame]

theorem isEscapeTable_references : IsEscapeTable references := by
  refine ⟨fun c hc => ?_, fun r hr => isNameChar_of_mem hr, fun r hr rest => ?_⟩
  · by_contra hnone
    refine hc ⟨?_, ?_, ?_⟩ <;> rintro rfl <;> exact hnone (by decide)
  · simp only [references, List.mem_cons, List.not_mem_nil, or_false] at hr
    rcases hr with rfl | rfl | rfl <;> rfl

theorem isEscapeTable_quotedReferences : IsEscapeTable quotedReferences := by
  have hnames : ∀ r ∈ quotedReferences, (r.name.all fun c => decide (IsNameChar c)) = true := by
    decide
  refine ⟨fun c hc => ?_, fun r hr c hc => ?_, fun r hr rest => ?_⟩
  · obtain ⟨r, hr, hchar⟩ := isEscapeTable_references.reserved c hc
    exact ⟨r, List.mem_append_left _ hr, hchar⟩
  · exact of_decide_eq_true (List.all_eq_true.1 (hnames r hr) c hc)
  · simp only [quotedReferences, references, List.cons_append, List.nil_append, List.mem_cons,
      List.not_mem_nil, or_false] at hr
    rcases hr with rfl | rfl | rfl | rfl | rfl <;> rfl

theorem escapeChars_eq_passes (s : List Char) : escapeChars s = passes references s := by
  have hnames : "&amp;".toList = '&' :: "amp;".toList ∧ "&lt;".toList = '&' :: "lt;".toList ∧
      "&gt;".toList = '&' :: "gt;".toList := by decide
  unfold escapeChars
  rw [hnames.1, hnames.2.1, hnames.2.2]
  rfl

theorem escapeQuotedChars_eq_passes (s : List Char) :
    escapeQuotedChars s = passes quotedReferences s := by
  have hnames : "&quot;".toList = '&' :: "quot;".toList ∧
      "&#x27;".toList = '&' :: "#x27;".toList := by decide
  unfold escapeQuotedChars quotedReferences passes
  rw [escapeChars_eq_passes, hnames.1, hnames.2, List.foldl_append]
  rfl

/-- Running text is escaped by the references of the reserved characters, the body of a
formula by those and the ones of the two quotes. -/
theorem escapes_by_references :
    EscapesBy references escape ∧ EscapesBy quotedReferences escapeQuoted := by
  refine ⟨escapesBy_of_passes isEscapeTable_references (by decide) fun s => ?_,
    escapesBy_of_passes isEscapeTable_quotedReferences (by decide) fun s => ?_⟩
  · unfold escape
    rw [String.toList_ofList, escapeChars_eq_passes]
  · unfold escapeQuoted
    rw [String.toList_ofList, escapeQuotedChars_eq_passes]

/-- What looks like references already is escaped once more, and read back as it was. -/
example : escape "&lt;&amp;" = "&amp;lt;&amp;amp;" ∧
    decode references "&amp;lt;&amp;amp;".toList = "&lt;&amp;".toList := by decide +kernel

end AlgoBox.Text
