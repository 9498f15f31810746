import AlgoBox.Proofs.WellNested

/-!
# The tags in an output

The tags of an output are read off its characters, knowing nothing of how it was made
(`tagsIn`): each goes from an opening angle bracket to the next closing one. Markup
that leaves no tag open at its end (`Sealed`) can be read piece by piece, and every
fragment is like that: what it shows holds no angle bracket, being escaped, or ends
with a tag. So the tags of an output are those of its fragments (`tagsIn_join`), and
two sequences of fragments are compared fragment by fragment (`SameTags`).
-/

namespace AlgoBox

open Html

/-! ## Escaped text -/

section Escaping

variable {c d : Char} {replacement s : List Char}

theorem Text.not_mem_replaceChar (h : c ∉ replacement) : c ∉ replaceChar c replacement s := by
  simp only [replaceChar, List.mem_flatMap, not_exists, not_and]
  intro x _
  split
  · exact h
  · rw [List.mem_singleton]
    exact fun hc => ‹¬x = c› hc.symm

theorem Text.not_mem_replaceChar_of_not_mem (hs : d ∉ s) (h : d ∉ replacement) :
    d ∉ replaceChar c replacement s := by
  simp only [replaceChar, List.mem_flatMap, not_exists, not_and]
  intro x hx
  split
  · exact h
  · rw [List.mem_singleton]
    rintro rfl
    exact hs hx

theorem Text.not_mem_escapeChars : '<' ∉ escapeChars s :=
  not_mem_replaceChar_of_not_mem (not_mem_replaceChar (by decide)) (by decide)

theorem Text.not_mem_escape (s : String) : '<' ∉ (escape s).toList := by
  rw [escape, String.toList_ofList]
  exact not_mem_escapeChars

theorem Text.not_mem_escapeQuoted (s : String) : '<' ∉ (escapeQuoted s).toList := by
  rw [escapeQuoted, String.toList_ofList]
  refine not_mem_replaceChar_of_not_mem ?_ (by decide)
  exact not_mem_replaceChar_of_not_mem not_mem_escapeChars (by decide)

end Escaping

namespace Html

theorem not_mem_escapedValue (value : Value) : '<' ∉ (escapedValue value).toList := by
  unfold escapedValue
  split
  · split
    · exact Text.not_mem_escape _
    · exact List.not_mem_nil
  · exact List.not_mem_nil

theorem not_mem_number (n : Nat) : '<' ∉ (toString n).toList := by
  intro h
  rw [Nat.toString_eq_repr, Nat.toList_repr] at h
  exact absurd (Nat.isDigit_of_mem_toDigits (by decide) (by decide) h) (by decide)

/-! ## Reading tags -/

/-- The tags in some characters, each from an opening angle bracket to the next closing
one, where some of a tag may have been read already. -/
def tagsFrom : Option (List Char) → List Char → List String
  | _, [] => []
  | none, c :: rest => tagsFrom (if c = '<' then some [c] else none) rest
  | some tag, c :: rest =>
    if c = '>' then String.ofList (tag ++ [c]) :: tagsFrom none rest
    else tagsFrom (some (tag ++ [c])) rest

/-- The tags in some markup. -/
def tagsIn (markup : String) : List String := tagsFrom none markup.toList

example : tagsIn "a > <b class=\"x\">c</b> <d" = ["<b class=\"x\">", "</b>"] := by decide +kernel

/-- No tag is open at the end of the markup: what follows is read on its own. -/
def Sealed (markup : String) : Prop :=
  ∀ rest, tagsIn (markup ++ rest) = tagsIn markup ++ tagsIn rest

theorem tagsFrom_of_not_mem {s : List Char} (h : '<' ∉ s) (rest : List Char) :
    tagsFrom none (s ++ rest) = tagsFrom none rest := by
  induction s with
  | nil => rfl
  | cons c s ih =>
      rw [List.mem_cons, not_or] at h
      obtain ⟨hc, hs⟩ := h
      rw [List.cons_append, tagsFrom, if_neg (Ne.symm hc)]
      exact ih hs

/-- A closing angle bracket ends a tag if one is open. -/
theorem tagsFrom_closed (tag : Option (List Char)) (s rest : List Char) :
    tagsFrom tag (s ++ '>' :: rest) = tagsFrom tag (s ++ ['>']) ++ tagsFrom none rest := by
  induction s generalizing tag with
  | nil => cases tag <;> rfl
  | cons c s ih =>
      cases tag with
      | none => exact ih _
      | some tag =>
          simp only [List.cons_append, tagsFrom]
          split
          · rw [ih, List.cons_append]
          · exact ih _

section Sealed

variable {s t : String}

theorem sealed_empty : Sealed "" := by
  intro rest
  rw [String.empty_append]
  rfl

theorem Sealed.append (hs : Sealed s) (ht : Sealed t) : Sealed (s ++ t) := by
  intro rest
  rw [String.append_assoc, hs, ht, hs, List.append_assoc]

theorem tagsIn_of_not_mem (h : '<' ∉ s.toList) : tagsIn s = [] := by
  unfold tagsIn
  rw [← List.append_nil s.toList, tagsFrom_of_not_mem h]
  rfl

theorem sealed_of_not_mem (h : '<' ∉ s.toList) : Sealed s := by
  intro rest
  rw [tagsIn_of_not_mem h]
  unfold tagsIn
  rw [String.toList_append, tagsFrom_of_not_mem h]
  rfl

theorem sealed_closed (s : String) : Sealed (s ++ ">") := by
  intro rest
  unfold tagsIn
  simp only [String.toList_append]
  rw [List.append_assoc]
  exact tagsFrom_closed none s.toList rest.toList

theorem sealed_join {pieces : List String} (h : ∀ piece ∈ pieces, Sealed piece) :
    Sealed (String.join pieces) := by
  induction pieces with
  | nil => exact sealed_empty
  | cons piece rest ih =>
      obtain ⟨hpiece, hrest⟩ := List.forall_mem_cons.1 h
      rw [String.join_cons]
      exact hpiece.append (ih hrest)

/-- Between sealed markup, what holds no angle bracket is not seen. -/
theorem tagsIn_enclosed {start stop : String} (hstart : Sealed start) (hstop : Sealed stop)
    (h : '<' ∉ s.toList) :
    Sealed (start ++ (s ++ stop)) ∧
      tagsIn (start ++ (s ++ stop)) = tagsIn start ++ tagsIn stop := by
  have hs := sealed_of_not_mem h
  refine ⟨hstart.append (hs.append hstop), ?_⟩
  rw [hstart, hs, tagsIn_of_not_mem h, List.nil_append]

/-- Sealed pieces are read one by one, whatever stands between them holds no tag. -/
theorem tagsIn_intercalate {separator : String} (hseparator : '<' ∉ separator.toList)
    {pieces : List String} (h : ∀ piece ∈ pieces, Sealed piece) :
    tagsIn (separator.intercalate pieces) = pieces.flatMap tagsIn := by
  induction pieces with
  | nil => rfl
  | cons piece rest ih =>
      obtain ⟨hpiece, hrest⟩ := List.forall_mem_cons.1 h
      cases rest with
      | nil => exact (List.append_nil _).symm
      | cons next rest =>
          rw [String.intercalate_cons_cons, String.append_assoc, hpiece,
            sealed_of_not_mem hseparator, tagsIn_of_not_mem hseparator, ih hrest]
          rfl

end Sealed

/-! ## Fragments -/

theorem Tag.sealed {tag : Tag} (h : ∀ markup, tag = .piece markup → Sealed markup) :
    Sealed tag.markup := by
  cases tag with
  | opens element attributes => exact sealed_closed _
  | closes element => exact sealed_closed _
  | piece markup => exact h markup rfl

/-- A fragment whose pieces are sealed is sealed. -/
theorem Fragment.sealed {f : Fragment} (h : ∀ markup, .piece markup ∈ f.tags → Sealed markup) :
    Sealed f.markup := by
  rw [markup_eq_tags]
  apply sealed_join
  intro markup hmarkup
  obtain ⟨tag, htag, rfl⟩ := List.mem_map.1 hmarkup
  exact Tag.sealed fun piece hpiece => h piece (hpiece ▸ htag)

/-- The tags in some fragments. -/
def tagsAmong (fragments : List Fragment) : List String := fragments.flatMap (tagsIn ·.markup)

theorem tagsAmong_append (l m : List Fragment) : tagsAmong (l ++ m) = tagsAmong l ++ tagsAmong m :=
  List.flatMap_append

/-- Joining neighbouring text changes no tag. -/
theorem tagsAmong_merged {fragments : List Fragment} (h : ∀ f ∈ fragments, Sealed f.markup) :
    (∀ f ∈ merged fragments, Sealed f.markup) ∧
      tagsAmong (merged fragments) = tagsAmong fragments := by
  have hattach : ∀ (f : Fragment) rest, Sealed f.markup → (∀ g ∈ rest, Sealed g.markup) →
      (∀ g ∈ attach f rest, Sealed g.markup) ∧
        tagsAmong (attach f rest) = tagsAmong (f :: rest) := by
    intro f rest hf hrest
    have hcases : (∃ s t rest', f = .text s ∧ rest = .text t :: rest' ∧
        attach f rest = .text (s ++ t) :: rest') ∨ attach f rest = f :: rest := by
      unfold attach
      split
      · exact .inl ⟨_, _, _, rfl, rfl, rfl⟩
      · exact .inr rfl
    rcases hcases with ⟨s, t, rest', rfl, rfl, hattach⟩ | hattach
    · rw [hattach]
      obtain ⟨hnext, hrest⟩ := List.forall_mem_cons.1 hrest
      have hs : Sealed s := hf
      have ht : Sealed t := hnext
      have hjoined : Sealed (Fragment.text (s ++ t)).markup := hs.append ht
      refine ⟨List.forall_mem_cons.2 ⟨hjoined, hrest⟩, ?_⟩
      show tagsIn (s ++ t) ++ tagsAmong rest' = tagsIn s ++ (tagsIn t ++ tagsAmong rest')
      rw [hs t, List.append_assoc]
    · rw [hattach]
      exact ⟨List.forall_mem_cons.2 ⟨hf, hrest⟩, rfl⟩
  induction fragments with
  | nil => exact ⟨h, rfl⟩
  | cons f rest ih =>
      obtain ⟨hf, hrest⟩ := List.forall_mem_cons.1 h
      obtain ⟨hsealed, htags⟩ := ih hrest
      obtain ⟨hsealed', htags'⟩ := hattach f (merged rest) hf hsealed
      refine ⟨hsealed', htags'.trans ?_⟩
      exact congrArg (tagsIn f.markup ++ ·) htags

/-- The tags in markup that is made of fragments. -/
theorem tagsIn_join {fragments : List Fragment} (h : ∀ f ∈ fragments, Sealed f.markup) :
    tagsIn (Fragment.join (merged fragments)) = tagsAmong fragments := by
  obtain ⟨hsealed, htags⟩ := tagsAmong_merged h
  have hpieces : ∀ piece ∈ (Text.Pieces.ofList ((merged fragments).map Fragment.markup)).toList,
      Sealed piece := by
    intro piece hpiece
    obtain ⟨f, hf, rfl⟩ := List.mem_map.1 (List.mem_filter.1 hpiece).1
    exact hsealed f hf
  have hseparator : '<' ∉ "\n".toList := by decide
  have hempty : ∀ pieces : List String,
      (pieces.filter (· ≠ "")).flatMap tagsIn = pieces.flatMap tagsIn := by
    intro pieces
    induction pieces with
    | nil => rfl
    | cons piece rest ih =>
        by_cases hpiece : piece = ""
        · subst hpiece
          exact ih
        · rw [List.filter_cons_of_pos (by simpa using hpiece), List.flatMap_cons, ih]
          rfl
  unfold Fragment.join Text.Pieces.join
  rw [tagsIn_intercalate hseparator hpieces, ← htags]
  refine (hempty _).trans ?_
  rw [List.flatMap_map]
  rfl

/-! ## The same tags -/

/-- Two sequences of fragments hold the same tags, and no fragment leaves one open. -/
structure SameTags (l l' : List Fragment) : Prop where
  left : ∀ f ∈ l, Sealed f.markup
  right : ∀ f ∈ l', Sealed f.markup
  tags : tagsAmong l = tagsAmong l'

namespace SameTags

variable {l l' m m' : List Fragment} {f f' : Fragment}

theorem nil : SameTags [] [] := ⟨nofun, nofun, rfl⟩

theorem append (h : SameTags l l') (h' : SameTags m m') : SameTags (l ++ m) (l' ++ m') where
  left := List.forall_mem_append.2 ⟨h.left, h'.left⟩
  right := List.forall_mem_append.2 ⟨h.right, h'.right⟩
  tags := by rw [tagsAmong_append, tagsAmong_append, h.tags, h'.tags]

theorem single (h : Sealed f.markup) (h' : Sealed f'.markup)
    (htags : tagsIn f.markup = tagsIn f'.markup) : SameTags [f] [f'] where
  left := List.forall_mem_singleton.2 h
  right := List.forall_mem_singleton.2 h'
  tags := by rw [tagsAmong, List.flatMap_singleton, htags, tagsAmong, List.flatMap_singleton]

theorem same (h : ∀ markup, .piece markup ∉ f.tags) : SameTags [f] [f] :=
  have hf : Sealed f.markup := Fragment.sealed fun markup hmarkup => absurd hmarkup (h markup)
  single hf hf rfl

theorem openDiv (div : Div) : SameTags [.openDiv div] [.openDiv div] :=
  same (by simp [Fragment.tags])

theorem closeDiv : SameTags [.closeDiv] [.closeDiv] := same (by simp [Fragment.tags])

theorem openLine (line : Line) : SameTags [.openLine line] [.openLine line] :=
  same (by simp [Fragment.tags])

theorem closeLine : SameTags [.closeLine] [.closeLine] := same (by simp [Fragment.tags])

theorem openSpan (span : Span) : SameTags [.openSpan span] [.openSpan span] :=
  same (by simp [Fragment.tags])

theorem closeSpan : SameTags [.closeSpan] [.closeSpan] := same (by simp [Fragment.tags])

/-- What is shown in a stretch of its own does not matter if it holds no angle bracket. -/
theorem labelled {attributes markup markup' : String}
    (hf : f.tags = [.opens .span attributes, .piece markup, .closes .span])
    (hf' : f'.tags = [.opens .span attributes, .piece markup', .closes .span])
    (h : '<' ∉ markup.toList) (h' : '<' ∉ markup'.toList) : SameTags [f] [f'] := by
  have hopens : Sealed (Tag.opens .span attributes).markup := Tag.sealed nofun
  have hcloses : Sealed (Tag.closes .span).markup := Tag.sealed nofun
  have heq : ∀ (g : Fragment) markup,
      g.tags = [.opens .span attributes, .piece markup, .closes .span] → g.markup =
        (Tag.opens .span attributes).markup ++ (markup ++ (Tag.closes .span).markup) := by
    intro g markup hg
    rw [Fragment.markup_eq_tags, hg]
    simp only [List.map_cons, List.map_nil, String.join_cons, String.join_nil, String.append_empty]
    rfl
  obtain ⟨hsealed, htags⟩ := tagsIn_enclosed hopens hcloses h
  obtain ⟨hsealed', htags'⟩ := tagsIn_enclosed hopens hcloses h'
  rw [← heq f markup hf] at hsealed htags
  rw [← heq f' markup' hf'] at hsealed' htags'
  exact single hsealed hsealed' (htags.trans htags'.symm)

theorem text {markup markup' : String} (h : '<' ∉ markup.toList) (h' : '<' ∉ markup'.toList) :
    SameTags [.text markup] [.text markup'] :=
  single (sealed_of_not_mem h) (sealed_of_not_mem h')
    ((tagsIn_of_not_mem h).trans (tagsIn_of_not_mem h').symm)

theorem keyword (word : String) : SameTags [.keyword word] [.keyword word] :=
  labelled rfl rfl (Text.not_mem_escape word) (Text.not_mem_escape word)

theorem functionName (name name' : String) : SameTags [.functionName name] [.functionName name'] :=
  labelled rfl rfl (Text.not_mem_escape name) (Text.not_mem_escape name')

theorem lineNumber (offset : String) (number : Nat) (value value' : Value) :
    SameTags [.lineNumber offset number (escapedValue value)]
      [.lineNumber offset number (escapedValue value')] := by
  have hpunc : ∀ value, '<' ∉ (toString number ++ escapedValue value).toList := by
    intro value
    rw [String.toList_append, List.mem_append, not_or]
    exact ⟨not_mem_number number, not_mem_escapedValue value⟩
  exact labelled rfl rfl (hpunc value) (hpunc value')

/-- A formula stands in a stretch of its own. -/
theorem delimited (body body' : String) :
    SameTags [.math body (Html.delimited body)] [.math body' (Html.delimited body')] := by
  have hopens : Sealed "<span class=\"math notranslate nohighlight\">\\(" := by
    have hbracket : Sealed "\\(" := sealed_of_not_mem (by decide)
    simpa using (sealed_closed "<span class=\"math notranslate nohighlight\"").append hbracket
  have hcloses : Sealed "\\)</span>" := by
    simpa using sealed_closed "\\)</span"
  have heq : ∀ body, Html.delimited body =
      "<span class=\"math notranslate nohighlight\">\\(" ++
        (Text.escapeQuoted body ++ "\\)</span>") := by
    intro body
    unfold Html.delimited
    exact String.append_assoc
  obtain ⟨hsealed, htags⟩ := tagsIn_enclosed hopens hcloses (Text.not_mem_escapeQuoted body)
  obtain ⟨hsealed', htags'⟩ := tagsIn_enclosed hopens hcloses (Text.not_mem_escapeQuoted body')
  rw [← heq] at hsealed htags hsealed' htags'
  exact single hsealed hsealed' (htags.trans htags'.symm)

end SameTags

end Html

end AlgoBox
