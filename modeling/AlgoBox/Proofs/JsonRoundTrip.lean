import AlgoBox.Json.Reader
import AlgoBox.Node.Json
import Mathlib.Data.List.Basic
import Mathlib.Data.List.DropRight

/-!
# JSON is read back as it was written

Every style of writing JSON is undone by reading (`Json.read?_text`), so that the text
of a tree stands for its outline and nothing else (`json_reads_back`).

`Undoes` is the fact about a piece of a text: a parser gives back what was written and
leaves what stands behind it, as long as that is no part of a number. It is proved for
values case by case; what items and members have in common, commas between and a mark at
the end, is proved once, for a sequence of anything (`any?_writeClosed`).
-/

namespace AlgoBox

namespace Json

variable {β : Type} {c : Char} {text rest blanks : List Char} {n bound level : Nat}

/-! ## Blanks -/

@[simp] theorem skipBlanks_skipBlanks (text : List Char) :
    skipBlanks (skipBlanks text) = skipBlanks text :=
  List.dropWhile_idempotent isBlank text

theorem skipBlanks_append (h : ∀ c ∈ blanks, isBlank c = true) (text : List Char) :
    skipBlanks (blanks ++ text) = skipBlanks text :=
  List.dropWhile_append_of_pos h

theorem skipBlanks_cons (h : isBlank c = false) (rest : List Char) :
    skipBlanks (c :: rest) = c :: rest :=
  List.dropWhile_cons_of_neg (by simp [h])

theorem isBlank_of_mem_lineStart {style : Style} (h : c ∈ style.lineStart level) :
    isBlank c = true := by
  cases style with
  | compact => cases h
  | indented width =>
      rcases List.mem_cons.1 h with rfl | hspace
      · rfl
      · obtain rfl := List.eq_of_mem_replicate hspace
        rfl

/-- Between two items stand a comma and blanks. -/
theorem exists_separator (style : Style) (level : Nat) :
    ∃ blanks, style.separator level = ',' :: blanks ∧ ∀ c ∈ blanks, isBlank c = true := by
  cases style with
  | compact => exact ⟨[' '], rfl, List.forall_mem_singleton.2 rfl⟩
  | indented width => exact ⟨_, rfl, fun c => isBlank_of_mem_lineStart⟩

/-! ## Strings -/

theorem unit?_append {digits : List Char} (h : digits.length = 4) (rest : List Char) :
    unit? (digits ++ rest) = (unit? digits).map fun (n, _) => (n, rest) := by
  match digits, h with
  | [a, b, c, d], _ =>
      simp only [unit?, List.cons_append, List.nil_append]
      cases hexValue? a <;> cases hexValue? b <;> cases hexValue? c <;> cases hexValue? d <;> rfl

/-- The control characters are escaped as four digits, which are read as their number. -/
theorem unit?_hexDigits (h : n < 0x20) (rest : List Char) :
    unit? (Text.hexDigits 4 n ++ rest) = some (n, rest) := by
  have hdigits : ∀ n < 0x20, (Text.hexDigits 4 n).length = 4 ∧
      unit? (Text.hexDigits 4 n) = some (n, []) := by decide
  obtain ⟨hlength, hunit⟩ := hdigits n h
  rw [unit?_append hlength, hunit]
  rfl

theorem unicode?_hexDigits (h : n < 0x20) (rest : List Char) :
    unicode? (Text.hexDigits 4 n ++ rest) = some (Char.ofNat n, rest) := by
  have hleading : isLeading n = false := by
    simp only [isLeading, Bool.and_eq_false_iff, decide_eq_false_iff_not]
    omega
  have htrailing : isTrailing n = false := by
    simp only [isTrailing, Bool.and_eq_false_iff, decide_eq_false_iff_not]
    omega
  unfold unicode?
  rw [unit?_hexDigits h]
  simp [hleading, htrailing]

/-- A character that is written in a string is read as that character. -/
theorem character?_escapeChar (c : Char) (rest : List Char) :
    character? (escapeChar c ++ rest) = some (c, rest) := by
  unfold escapeChar
  split_ifs with hquote hslash hfeed hreturn htab hback hform hcontrol
  · rw [hquote]; rfl
  · rw [hslash]; rfl
  · rw [hfeed]; rfl
  · rw [hreturn]; rfl
  · rw [htab]; rfl
  · rw [hback]; rfl
  · rw [hform]; rfl
  · show unicode? (Text.hexDigits 4 c.toNat ++ rest) = _
    rw [unicode?_hexDigits hcontrol, Char.ofNat_toNat]
  · show character? (c :: rest) = _
    simp only [character?, if_neg hslash, if_neg hcontrol]

theorem exists_escapeChar (c : Char) : ∃ d ds, escapeChar c = d :: ds ∧ d ≠ '"' := by
  unfold escapeChar
  split_ifs with hquote hslash hfeed hreturn htab hback hform hcontrol
  all_goals first
    | exact ⟨_, _, rfl, by decide⟩
    | exact ⟨_, _, rfl, hquote⟩

theorem characters?_flatMap (cs : List Char) (rest : List Char)
    (h : (cs.flatMap escapeChar ++ '"' :: rest).length ≤ bound) :
    characters? bound (cs.flatMap escapeChar ++ '"' :: rest) = some (cs, rest) := by
  induction cs generalizing bound with
  | nil =>
      cases bound with
      | zero => simp at h
      | succ bound => rfl
  | cons c cs ih =>
      obtain ⟨d, ds, hc, hd⟩ := exists_escapeChar c
      have hread := character?_escapeChar c (cs.flatMap escapeChar ++ '"' :: rest)
      rw [List.flatMap_cons, List.append_assoc] at h ⊢
      rw [hc] at h hread ⊢
      cases bound with
      | zero => simp at h
      | succ bound =>
          have hrest : characters? bound (cs.flatMap escapeChar ++ '"' :: rest) = some (cs, rest) :=
            ih (by simp at h ⊢; omega)
          simp only [List.cons_append] at hread ⊢
          simp [characters?, hd, hread, hrest]

theorem quote_append (s : String) (rest : List Char) :
    quote s ++ rest = '"' :: (s.toList.flatMap escapeChar ++ '"' :: rest) := by
  simp [quote]

/-- A string is read back from behind its opening quote. -/
theorem string?_quote (s : String) (rest : List Char) :
    string? (s.toList.flatMap escapeChar ++ '"' :: rest) = some (s, rest) := by
  unfold string?
  rw [characters?_flatMap s.toList rest (Nat.le_succ _)]
  simp

/-! ## Numbers -/

/-- Nothing that a number could go on with. -/
def EndsNumber (rest : List Char) : Prop := ∀ c ∈ rest.head?, c.isDigit = false ∧ goesOn c = false

@[simp] theorem endsNumber_nil : EndsNumber [] := nofun

@[simp] theorem endsNumber_cons :
    EndsNumber (c :: rest) ↔ c.isDigit = false ∧ goesOn c = false := by
  simp [EndsNumber]

/-- Only zero is written with a zero in front. -/
theorem eq_zero_of_head?_toDigits (h : (Nat.toDigits 10 n).head? = some '0') : n = 0 := by
  induction n using Nat.strong_induction_on with
  | _ n ih =>
      rw [Nat.toDigits_eq_if (by decide)] at h
      split at h
      · rename_i hlt
        have hzero : ∀ n < 10, Nat.digitChar n = '0' → n = 0 := by decide
        exact hzero n hlt (Option.some.inj h)
      · rename_i hge
        rw [List.head?_append_of_ne_nil _ Nat.toDigits_ne_nil] at h
        have hquotient := ih (n / 10) (by omega) h
        omega

theorem natural?_toDigits (n : Nat) (h : EndsNumber rest) :
    natural? (Nat.toDigits 10 n ++ rest) = some (n, rest) := by
  have hdigits : ∀ c ∈ Nat.toDigits 10 n, c.isDigit = true := by
    intro c hc
    exact Nat.isDigit_of_mem_toDigits (by decide) (by decide) hc
  have hzero : ¬((Nat.toDigits 10 n).head? = some '0' ∧ Nat.toDigits 10 n ≠ ['0']) := by
    rintro ⟨hhead, hne⟩
    obtain rfl := eq_zero_of_head?_toDigits hhead
    exact hne rfl
  have hrest : rest.takeWhile Char.isDigit = [] ∧ rest.dropWhile Char.isDigit = rest ∧
      rest.head?.any goesOn = false := by
    cases rest with
    | nil => exact ⟨rfl, rfl, rfl⟩
    | cons c rest =>
        obtain ⟨hdigit, hgoes⟩ := endsNumber_cons.1 h
        simp [hdigit, hgoes]
  obtain ⟨htake, hdrop, hany⟩ := hrest
  unfold natural?
  simp only [List.takeWhile_append_of_pos hdigits, List.dropWhile_append_of_pos hdigits, htake,
    hdrop, List.append_nil, hany]
  rw [if_neg, Nat.ofDigitChars_ten_toDigits]
  simp [Nat.toDigits_ne_nil, hzero]

theorem toList_ofNat (n : Nat) : (toString (Int.ofNat n)).toList = Nat.toDigits 10 n := by
  show n.repr.toList = _
  rw [Nat.repr_eq_ofList_toDigits, String.toList_ofList]

theorem toList_negSucc (n : Nat) :
    (toString (Int.negSucc n)).toList = '-' :: Nat.toDigits 10 (n + 1) := by
  show ("-" ++ (n + 1).repr).toList = _
  rw [String.toList_append, Nat.repr_eq_ofList_toDigits]
  exact congrArg ('-' :: ·) String.toList_ofList

theorem exists_toDigits (n : Nat) : ∃ c cs, Nat.toDigits 10 n = c :: cs ∧ c.isDigit = true := by
  obtain ⟨c, cs, hdigits⟩ := List.exists_cons_of_ne_nil (Nat.toDigits_ne_nil (n := n) (b := 10))
  have hmem : c ∈ Nat.toDigits 10 n := hdigits ▸ List.mem_cons_self
  exact ⟨c, cs, hdigits, Nat.isDigit_of_mem_toDigits (by decide) (by decide) hmem⟩

/-- A whole number is read back in front of what is no part of a number. -/
theorem integer?_toString (n : Int) (h : EndsNumber rest) :
    integer? ((toString n).toList ++ rest) = some (n, rest) := by
  unfold integer?
  cases n with
  | ofNat n =>
      obtain ⟨c, cs, hdigits, hc⟩ := exists_toDigits n
      have hread := natural?_toDigits n h
      have hminus : c ≠ '-' := by
        rintro rfl
        cases hc
      rw [toList_ofNat]
      rw [if_neg (by simpa [hdigits] using hminus), hread]
      rfl
  | negSucc n =>
      have hread := natural?_toDigits (n + 1) h
      rw [toList_negSucc, List.cons_append, List.head?_cons, if_pos rfl, List.tail_cons, hread]
      rfl

/-- A whole number starts with a digit or a minus. -/
theorem exists_toString (n : Int) :
    ∃ c cs, (toString n).toList = c :: cs ∧ (c.isDigit = true ∨ c = '-') := by
  cases n with
  | ofNat n =>
      obtain ⟨c, cs, hdigits, hc⟩ := exists_toDigits n
      exact ⟨c, cs, (toList_ofNat n).trans hdigits, .inl hc⟩
  | negSucc n => exact ⟨'-', _, toList_negSucc n, .inr rfl⟩

/-! ## Sequences -/

/-- A parser does not look at blanks in front of what it reads. -/
def IgnoresBlanks (read : Parser β) : Prop := ∀ text, read (skipBlanks text) = read text

theorem IgnoresBlanks.append {read : Parser β} (h : IgnoresBlanks read)
    (hblanks : ∀ c ∈ blanks, isBlank c = true) (text : List Char) :
    read (blanks ++ text) = read text := by
  rw [← h (blanks ++ text), skipBlanks_append hblanks, h]

theorem IgnoresBlanks.some? {read : Parser β} (h : IgnoresBlanks read) (close : Char)
    (bound : Nat) : IgnoresBlanks (some? close read bound) := by
  intro text
  cases bound with
  | zero => rfl
  | succ bound => simp only [Json.some?, h text]

/-- A mark that may close a sequence of what is read: nothing that is read starts with it. -/
structure Closes (close : Char) (read : Parser β) : Prop where
  mark : close = ']' ∨ close = '}'
  ignoresBlanks : IgnoresBlanks read
  atEnd : read [] = none
  atMark : ∀ rest, read (close :: rest) = none

namespace Closes

variable {close : Char} {read : Parser β} (h : Closes close read)
include h

theorem ends : close.isDigit = false ∧ goesOn close = false := by
  rcases h.mark with rfl | rfl <;> decide

theorem isBlank_eq : isBlank close = false := by
  rcases h.mark with rfl | rfl <;> decide

theorem ne_comma : close ≠ ',' := by
  rcases h.mark with rfl | rfl <;> decide

end Closes

/-- A parser undoes what is written, on texts of at most `size` characters. -/
structure Undoes (size : Nat) (read : Parser β) (write : List Char → List Char) (b : β) : Prop where
  grows : ∀ rest, rest.length < (write rest).length
  reads : ∀ rest, EndsNumber rest → (write rest).length ≤ size → read (write rest) = some (b, rest)

section Sequences

variable {read : Parser β} {write : β → List Char → List Char} {style : Style} {size : Nat}
  {close : Char} {first : β} {items : List β}

/-- Writes the items behind the first one, with separators in front of them. -/
def writeAll (style : Style) (level : Nat) (write : β → List Char → List Char) (items : List β)
    (rest : List Char) : List Char :=
  items.foldr (fun item rest => style.separator level ++ write item rest) rest

/-- Writes items up to the mark that closes them, all on a level below. -/
def writeClosed (style : Style) (level : Nat) (write : β → List Char → List Char) (close : Char)
    (first : β) (items : List β) (rest : List Char) : List Char :=
  write first (writeAll style (level + 1) write items (style.lineStart level ++ close :: rest))

theorem writeItems_eq (style : Style) (level : Nat) (items : List Json) (rest : List Char) :
    writeItems style level items rest =
      writeAll style level (Json.write style level) items rest := by
  induction items with
  | nil => rfl
  | cons item items ih => rw [writeItems, ih]; rfl

/-- Writes a member of an object. -/
def writeMember (style : Style) (level : Nat) (member : String × Json) (rest : List Char) :
    List Char :=
  quote member.1 ++ ':' :: ' ' :: Json.write style level member.2 rest

theorem writeMembers_eq (style : Style) (level : Nat) (members : List (String × Json))
    (rest : List Char) :
    writeMembers style level members rest =
      writeAll style level (writeMember style level) members rest := by
  induction members with
  | nil => rfl
  | cons member members ih =>
      obtain ⟨name, value⟩ := member
      rw [writeMembers, ih]
      simp [writeAll, writeMember]

theorem length_writeAll (style : Style) (level : Nat) (rest : List Char)
    (h : ∀ item ∈ items, ∀ rest, rest.length < (write item rest).length) :
    items.length + rest.length ≤ (writeAll style level write items rest).length := by
  induction items with
  | nil => simp [writeAll]
  | cons item items ih =>
      obtain ⟨hitem, hitems⟩ := List.forall_mem_cons.1 h
      have hgrows := hitem (writeAll style level write items rest)
      have hrest := ih hitems
      simp only [writeAll, List.foldr_cons, List.length_append, List.length_cons] at hgrows hrest ⊢
      omega

/-- What stands behind an item starts with a comma or, blanks aside, with the mark
that closes the sequence. -/
theorem endsNumber_writeAll (hclose : close.isDigit = false ∧ goesOn close = false) :
    EndsNumber
      (writeAll style (level + 1) write items (style.lineStart level ++ close :: rest)) := by
  cases items with
  | cons item items =>
      obtain ⟨blanks, hseparator, -⟩ := exists_separator style (level + 1)
      simp only [writeAll, List.foldr_cons, hseparator, List.cons_append, endsNumber_cons]
      decide
  | nil =>
      cases style with
      | compact => simpa [writeAll, Style.lineStart] using hclose
      | indented width =>
          simp only [writeAll, List.foldr_nil, Style.lineStart, List.cons_append, endsNumber_cons]
          decide

/-- Items are read one after the other up to the mark that closes them. -/
theorem some?_writeClosed (hclose : Closes close read)
    (h : ∀ item ∈ first :: items, Undoes size read (write item) item)
    (hlength : (writeClosed style level write close first items rest).length ≤ size)
    (hbound : items.length < bound) :
    some? close read bound (writeClosed style level write close first items rest) =
      some (first :: items, rest) := by
  induction items generalizing first bound with
  | nil =>
      have hfirst := (h first List.mem_cons_self).reads _ (endsNumber_writeAll hclose.ends) hlength
      have hskip : skipBlanks (style.lineStart level ++ close :: rest) = close :: rest := by
        rw [skipBlanks_append fun c => isBlank_of_mem_lineStart]
        exact skipBlanks_cons hclose.isBlank_eq rest
      cases bound with
      | zero => cases hbound
      | succ bound =>
          simp only [some?, writeClosed, hfirst]
          simp [writeAll, hskip]
  | cons second items ih =>
      obtain ⟨hundoes, hitems⟩ := List.forall_mem_cons.1 h
      obtain ⟨blanks, hseparator, hseparated⟩ := exists_separator style (level + 1)
      have hwrite : writeClosed style level write close first (second :: items) rest = write first
          (',' :: (blanks ++ writeClosed style level write close second items rest)) := by
        simp [writeAll, writeClosed, hseparator]
      rw [hwrite] at hlength ⊢
      have hfirst := hundoes.reads _ (endsNumber_cons.2 (by decide)) hlength
      have hgrows := hundoes.grows (',' :: (blanks ++
        writeClosed style level write close second items rest))
      rw [List.length_cons, List.length_append] at hgrows
      have hcomma : skipBlanks (',' :: (blanks ++
          writeClosed style level write close second items rest)) = ',' :: _ :=
        skipBlanks_cons rfl _
      cases bound with
      | zero => cases hbound
      | succ bound =>
          have hrest := ih hitems (by omega) (Nat.lt_of_succ_lt_succ hbound)
          have hskip := (hclose.ignoresBlanks.some? close bound).append hseparated
            (writeClosed style level write close second items rest)
          simp only [some?, hfirst]
          simp [hcomma, hclose.ne_comma.symm, hskip, hrest]

/-- A sequence that has items is read as those items. -/
theorem any?_writeClosed (hclose : Closes close read)
    (h : ∀ item ∈ first :: items, Undoes size read (write item) item)
    (hlength : (writeClosed style level write close first items rest).length ≤ size) :
    any? close read (style.lineStart (level + 1) ++
        writeClosed style level write close first items rest) =
      some (first :: items, rest) := by
  have hgrows := (h first List.mem_cons_self).grows
    (writeAll style (level + 1) write items (style.lineStart level ++ close :: rest))
  have hitems := length_writeAll style (level + 1) (style.lineStart level ++ close :: rest)
    fun item hitem => (h item (List.mem_cons_of_mem _ hitem)).grows
  have hfirst := (h first List.mem_cons_self).reads _ (endsNumber_writeAll hclose.ends) hlength
  have hlines : ∀ c ∈ style.lineStart (level + 1), isBlank c = true :=
    fun c => isBlank_of_mem_lineStart
  have hbound : items.length < (style.lineStart (level + 1) ++
      writeClosed style level write close first items rest).length := by
    rw [List.length_append, writeClosed]
    omega
  have hread := some?_writeClosed hclose h hlength hbound
  rw [← (hclose.ignoresBlanks.some? close _).append hlines] at hread
  unfold any?
  rw [skipBlanks_append hlines]
  change read (writeClosed style level write close first items rest) = _ at hfirst
  rw [← hclose.ignoresBlanks] at hfirst
  cases hskip : skipBlanks (writeClosed style level write close first items rest) with
  | nil =>
      rw [hskip, hclose.atEnd] at hfirst
      cases hfirst
  | cons mark tail =>
      -- the first item is read from here, so this is not the closing mark
      have hmark : mark ≠ close := by
        rintro rfl
        rw [hskip, hclose.atMark] at hfirst
        cases hfirst
      simp only [if_neg hmark]
      exact hread

end Sequences

/-! ## Values -/

theorem value?_ignoresBlanks (bound : Nat) : IgnoresBlanks (value? bound) := by
  intro text
  cases bound with
  | zero => rfl
  | succ bound => simp only [value?, skipBlanks_skipBlanks]

theorem member?_ignoresBlanks (read : Parser Json) : IgnoresBlanks (member? read) := by
  intro text
  simp only [member?, skipBlanks_skipBlanks]

theorem value?_string (bound : Nat) (text : List Char) :
    value? (bound + 1) ('"' :: text) = (string? text).map fun (s, rest) => (.string s, rest) :=
  rfl

/-- What starts with a digit or a minus is read as a number. -/
theorem value?_integer (h : c.isDigit = true ∨ c = '-') (bound : Nat) (rest : List Char) :
    value? (bound + 1) (c :: rest) =
      (integer? (c :: rest)).map fun (n, rest) => (.int n, rest) := by
  have hother : ∀ d ∈ [' ', '\t', '\n', '\r', 'n', 't', 'f', '"', '[', '{'], c ≠ d := by
    rintro d hd rfl
    have hdigits : [' ', '\t', '\n', '\r', 'n', 't', 'f', '"', '[', '{'].all
        (fun d => !d.isDigit && d != '-') = true := by decide
    obtain ⟨hno, hminus⟩ : c.isDigit = false ∧ c ≠ '-' := by
      simpa using List.all_eq_true.1 hdigits c hd
    rcases h with h | h
    · rw [hno] at h
      cases h
    · exact hminus h
  simp only [List.forall_mem_cons] at hother
  unfold value?
  rw [skipBlanks_cons (by simp [isBlank, hother])]
  split <;> simp_all

theorem closes_items (bound : Nat) : Closes ']' (value? bound) where
  mark := .inl rfl
  ignoresBlanks := value?_ignoresBlanks bound
  atEnd := by cases bound <;> rfl
  atMark rest := by
    cases bound with
    | zero => rfl
    | succ bound =>
        unfold value?
        rw [skipBlanks_cons rfl]
        rfl

theorem closes_members (read : Parser Json) : Closes '}' (member? read) where
  mark := .inr rfl
  ignoresBlanks := member?_ignoresBlanks read
  atEnd := rfl
  atMark _ := rfl

/-- A member is read back when its value is. -/
theorem undoes_member {style : Style} {member : String × Json} {size : Nat} {read : Parser Json}
    (hblanks : IgnoresBlanks read)
    (h : Undoes size read (Json.write style level member.2) member.2) :
    Undoes size (member? read) (writeMember style level member) member where
  grows rest := by
    have hvalue := h.grows rest
    simp only [writeMember, List.length_append, List.length_cons]
    omega
  reads rest hends hsize := by
    obtain ⟨name, value⟩ := member
    have hvalue := h.reads rest hends (by simp [writeMember] at hsize ⊢; omega)
    have hspace : read ([' '] ++ Json.write style level value rest) = some (value, rest) := by
      rw [hblanks.append (List.forall_mem_singleton.2 rfl), hvalue]
    rw [List.singleton_append] at hspace
    have hcolon : skipBlanks (':' :: ' ' :: Json.write style level value rest) = ':' :: _ :=
      skipBlanks_cons rfl _
    have hquote (rest : List Char) : skipBlanks ('"' :: rest) = '"' :: rest :=
      skipBlanks_cons rfl rest
    simp only [writeMember, quote_append, member?, hquote]
    simp [string?_quote, hcolon, hspace]

section Values

variable {style : Style} {json : Json}

/-- Where every value is read that has as many characters as the bound allows, the bound
is no matter. -/
theorem Undoes.of_reads (hgrows : ∀ rest, rest.length < (json.write style level rest).length)
    (h : ∀ bound rest, EndsNumber rest → (json.write style level rest).length ≤ bound + 1 →
      value? (bound + 1) (json.write style level rest) = some (json, rest)) :
    Undoes bound (value? bound) (json.write style level) json where
  grows := hgrows
  reads rest hends hsize := by
    cases bound with
    | zero =>
        have hlength := hgrows rest
        omega
    | succ bound => exact h bound rest hends hsize

/-- A value that is written as a word is read back when the word is read. -/
theorem Undoes.of_word (word : List Char) (hword : word ≠ [])
    (hwrite : ∀ rest, json.write style level rest = word ++ rest)
    (h : ∀ bound rest, EndsNumber rest → value? (bound + 1) (word ++ rest) = some (json, rest)) :
    Undoes bound (value? bound) (json.write style level) json := by
  have hlength := List.length_pos_of_ne_nil hword
  refine .of_reads (fun rest => ?_) (fun bound rest hends _ => ?_)
  · rw [hwrite, List.length_append]
    omega
  · rw [hwrite]
    exact h bound rest hends

/-- A value that is written as a sequence between marks is read back when the items are. -/
theorem Undoes.of_sequence (mark : Char) {close : Char} {read : Nat → Parser β}
    {write : β → List Char → List Char} {first : β} {items : List β} {make : List β → Json}
    (hwrite : ∀ rest, (make (first :: items)).write style level rest = mark ::
      (style.lineStart (level + 1) ++ writeClosed style level write close first items rest))
    (hread : ∀ bound text, value? (bound + 1) (mark :: text) =
      (any? close (read bound) text).map fun (items, rest) => (make items, rest))
    (hclose : ∀ bound, Closes close (read bound))
    (h : ∀ bound, ∀ item ∈ first :: items, Undoes bound (read bound) (write item) item) :
    Undoes bound (value? bound) ((make (first :: items)).write style level)
      (make (first :: items)) := by
  have hgrows (rest : List Char) :
      rest.length < (writeClosed style level write close first items rest).length := by
    have hfirst := (h 0 first List.mem_cons_self).grows
      (writeAll style (level + 1) write items (style.lineStart level ++ close :: rest))
    have hitems := length_writeAll style (level + 1) (style.lineStart level ++ close :: rest)
      fun item hitem => (h 0 item (List.mem_cons_of_mem _ hitem)).grows
    rw [List.length_append, List.length_cons] at hitems
    rw [writeClosed]
    omega
  refine .of_reads (fun rest => ?_) (fun bound rest _ hsize => ?_)
  · have hrest := hgrows rest
    rw [hwrite, List.length_cons, List.length_append]
    omega
  · rw [hwrite, List.length_cons, List.length_append] at hsize
    rw [hwrite, hread, any?_writeClosed (hclose bound) (h bound) (by omega)]
    rfl

end Values

mutual

/-- A value is read back in front of what is no part of a number. -/
theorem undoes_write (style : Style) : ∀ (json : Json) (level bound : Nat),
    Undoes bound (value? bound) (json.write style level) json
  | .null, _, _ => .of_word ['n', 'u', 'l', 'l'] nofun (fun _ => rfl) fun _ _ _ => rfl
  | .bool true, _, _ =>
    .of_word ['t', 'r', 'u', 'e'] nofun (fun _ => rfl) fun _ _ _ => rfl
  | .bool false, _, _ =>
    .of_word ['f', 'a', 'l', 's', 'e'] nofun (fun _ => rfl) fun _ _ _ => rfl
  | .array [], _, _ => .of_word ['[', ']'] nofun (fun _ => rfl) fun _ _ _ => rfl
  | .object [], _, _ => .of_word ['{', '}'] nofun (fun _ => rfl) fun _ _ _ => rfl
  | .int n, _, _ => by
    obtain ⟨c, cs, htext, hc⟩ := exists_toString n
    refine .of_word (toString n).toList (htext ▸ nofun) (fun _ => rfl) fun bound rest hends => ?_
    have hread := integer?_toString n hends
    rw [htext, List.cons_append] at hread ⊢
    rw [value?_integer hc, hread]
    rfl
  | .string s, _, _ => by
    refine .of_word (quote s) (by simp [quote]) (fun _ => rfl) fun bound rest _ => ?_
    rw [quote_append, value?_string, string?_quote]
    rfl
  | .array (item :: items), level, _ => by
    have hitems := undoes_items style (item :: items) (level + 1)
    refine .of_sequence '[' (fun rest => ?_) (fun _ _ => rfl) closes_items hitems
    rw [Json.write, writeItems_eq]
    rfl
  | .object (member :: members), level, _ => by
    have hmembers := undoes_members style (member :: members) (level + 1)
    refine .of_sequence '{' (fun rest => ?_) (fun _ _ => rfl) (fun _ => closes_members _) hmembers
    obtain ⟨name, value⟩ := member
    rw [Json.write, writeMembers_eq]
    simp [writeClosed, writeMember]

theorem undoes_items (style : Style) : ∀ (items : List Json) (level bound : Nat),
    ∀ item ∈ items, Undoes bound (value? bound) (item.write style level) item
  | [], _, _ => nofun
  | item :: items, level, bound => List.forall_mem_cons.2
    ⟨undoes_write style item level bound, undoes_items style items level bound⟩

theorem undoes_members (style : Style) : ∀ (members : List (String × Json)) (level bound : Nat),
    ∀ member ∈ members,
      Undoes bound (member? (value? bound)) (writeMember style level member) member
  | [], _, _ => nofun
  | (_, value) :: members, level, bound => List.forall_mem_cons.2
    ⟨undoes_member (value?_ignoresBlanks bound) (undoes_write style value level bound),
      undoes_members style members level bound⟩

end

theorem toList_text (style : Style) (json : Json) :
    (json.text style).toList = json.write style 0 [] :=
  String.toList_ofList

/-- What is written is read back, whatever the style. -/
theorem read?_text (style : Style) (json : Json) : read? (json.text style) = some json := by
  have hlength : (json.write style 0 []).length ≤ (json.text style).length + 1 := by
    rw [← toList_text, String.length_toList]
    exact Nat.le_succ _
  have hvalue := (undoes_write style json 0 _).reads [] endsNumber_nil hlength
  unfold read?
  rw [toList_text, hvalue]
  rfl

/-- In one style no two values are written alike. -/
theorem text_inj {style : Style} {json json' : Json} :
    json.text style = json'.text style ↔ json = json' := by
  constructor
  · intro h
    have hread := read?_text style json
    rw [h, read?_text] at hread
    exact (Option.some.inj hread).symm
  · intro h
    rw [h]

/-! ## Names of members -/

mutual

/-- No name stands twice in an object of a value. -/
def HasDistinctNames : Json → Prop
  | .array items => AllHaveDistinctNames items
  | .object members => (members.map Prod.fst).Nodup ∧ MembersHaveDistinctNames members
  | .null | .bool _ | .int _ | .string _ => True

/-- So it is in some values. -/
def AllHaveDistinctNames : List Json → Prop
  | [] => True
  | item :: items => item.HasDistinctNames ∧ AllHaveDistinctNames items

/-- So it is in the values of some members. -/
def MembersHaveDistinctNames : List (String × Json) → Prop
  | [] => True
  | (_, value) :: members => value.HasDistinctNames ∧ MembersHaveDistinctNames members

end

end Json

namespace Outline

open Source

theorem Value.hasDistinctNames_toJson (value : Outline.Value) : value.toJson.HasDistinctNames := by
  cases value with
  | none | word => trivial
  | routine | choice => exact ⟨by simp, trivial, trivial, trivial⟩

theorem hasDistinctNames_locationJson (l : Location) : (locationJson l).HasDistinctNames :=
  ⟨by simp, trivial, trivial, trivial, trivial, trivial⟩

mutual

/-- No name stands twice in the JSON of an outline. -/
theorem hasDistinctNames_toJson (withLocation : Bool) : ∀ outline : Outline Location,
    (outline.toJson withLocation).HasDistinctNames
  | .mk loc type value children => by
    have hchildren := hasDistinctNames_toJsonAll withLocation children
    have hvalue := value.hasDistinctNames_toJson
    have hloc := hasDistinctNames_locationJson loc
    cases withLocation with
    | false => exact ⟨by simp [locationMember], hchildren, trivial, hvalue, trivial⟩
    | true => exact ⟨by simp [locationMember], hchildren, hloc, trivial, hvalue, trivial⟩

theorem hasDistinctNames_toJsonAll (withLocation : Bool) : ∀ outlines : List (Outline Location),
    Json.AllHaveDistinctNames (toJsonAll withLocation outlines)
  | [] => trivial
  | outline :: rest =>
    ⟨hasDistinctNames_toJson withLocation outline, hasDistinctNames_toJsonAll withLocation rest⟩

end

end Outline

/-! ## The JSON of a tree -/

/-- The JSON of a tree that has an outline is read back from its text, whatever the
indent is and whether locations are wanted or not. No name stands twice in an object,
and a text in one indent belongs to one text in each other indent. -/
theorem json_reads_back {tree : Node Source.Location} {withLocation : Bool} {json : Json}
    (h : tree.outline.map (Outline.toJson withLocation) = .ok json) :
    json.HasDistinctNames ∧
    (∀ indent : Option Int, Json.read? (json.text (.ofIndent indent)) = some json) ∧
    ∀ (other : Json) (indent indent' : Option Int),
      other.text (.ofIndent indent) = json.text (.ofIndent indent) →
      other.text (.ofIndent indent') = json.text (.ofIndent indent') := by
  refine ⟨?_, ?_, ?_⟩
  · cases houtline : tree.outline with
    | error fault =>
        rw [houtline] at h
        cases h
    | ok outline =>
        rw [houtline] at h
        cases h
        exact outline.hasDistinctNames_toJson withLocation
  · intro indent
    exact Json.read?_text _ json
  · intro other indent indent' htext
    rw [Json.text_inj.1 htext]

/-- A function without a body whose name holds a quote, a backslash, a line feed, a
control character and characters beyond ASCII, with locations and a negative indent. -/
theorem json_reads_back_escapes :
    let tree : Node Source.Location :=
      .function ⟨1, 2, -3, 40⟩ "FUNCTION" "a\"\\\n\x01é😀" (.mk ⟨0, 0, 0, 0⟩ []) none
    ∃ json, tree.outline.map (Outline.toJson true) = .ok json ∧
      Json.read? (json.text (.ofIndent (some (-1)))) = some json := by
  intro tree
  have htree : ∃ json, tree.outline.map (Outline.toJson true) = .ok json := ⟨_, rfl⟩
  obtain ⟨json, hjson⟩ := htree
  obtain ⟨-, hread, -⟩ := json_reads_back hjson
  exact ⟨json, hjson, hread (some (-1))⟩

end AlgoBox
