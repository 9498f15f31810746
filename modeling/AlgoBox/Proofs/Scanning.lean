import AlgoBox.Proofs.Derivation
import Mathlib.Data.List.TakeWhile

/-!
# Scanning and writing

Which characters a token is written with, which tokens can be written at all
(`Token.Valid`), and that the recognizers match exactly the tokens that can
(`firstMatch?_eq_some_iff`). From there on a source is either at its end, or
starts with a blank, with a token, or with text that is no token
(`scan_induction`), and what holds of a scan is proved by these four cases.
-/

namespace AlgoBox

open AlgoBox.Symbol Text

/-! ## Tokens as text -/

namespace Token

/-- The characters of a token. -/
def chars : Token → List Char
  | word name => '\\' :: name.toList
  | openBrace => ['{']
  | closeBrace => ['}']
  | ordinary content => content.toList
  | special escape => escape.toList
  | math body => '$' :: (body.toList ++ ['$'])
  | endOfSource => []

/-- A backslash stands right before what follows the text; before the text there
is one if `escaped`. -/
def EndsEscaped (escaped : Bool) (s : List Char) : Prop :=
  match s.getLast? with
  | none => escaped = true
  | some c => c = '\\'

/-- Each dollar stands right after a backslash, and a dollar behind the text
would not. -/
def IsFormula (escaped : Bool) (body : List Char) : Prop :=
  (∀ u v, body = u ++ '$' :: v → EndsEscaped escaped u) ∧ ¬EndsEscaped escaped body

/-- The token can be written. -/
def Valid : Token → Prop
  | word name => name.toList ≠ [] ∧ ∀ c ∈ name.toList, isLetter c = true
  | ordinary content =>
    content.toList ≠ [] ∧ (∀ c ∈ content.toList.head?, isBlank c = false) ∧
      ∀ c ∈ content.toList, isReserved c = false
  | special escape => ∃ c, isReserved c = true ∧ escape.toList = ['\\', c]
  | math body => IsFormula false body.toList
  | openBrace | closeBrace | endOfSource => True

/-- A token ends where the given text begins. -/
def Stops : Token → List Char → Prop
  | word _, rest => ∀ c ∈ rest.head?, isLetter c = false
  | ordinary _, rest => ∀ c ∈ rest.head?, isReserved c = true
  | _, _ => True

/-- The token is a run of ordinary characters. -/
def IsOrdinary : Token → Prop
  | ordinary _ => True
  | _ => False

/-- What the recognizers make of a token. -/
def asMatch (t : Token) : Match := ⟨t.kind, t.text.getD "", t.chars.length⟩

/-- The symbol of a token that is written at an offset. -/
def symbolAt (t : Token) (offset : Nat) : Symbol :=
  ⟨t.kind, some (t.text.getD ""), offset, offset + t.chars.length⟩

theorem token_symbolAt {t : Token} (ht : t ≠ .endOfSource) (offset : Nat) :
    (t.symbolAt offset).token = t := by
  cases t with
  | endOfSource => exact absurd rfl ht
  | _ => rfl

theorem proper_symbolAt {t : Token} (ht : t ≠ .endOfSource) (offset : Nat) :
    (t.symbolAt offset).Proper where
  text_eq := by
    rw [token_symbolAt ht]
    cases t with
    | endOfSource => exact absurd rfl ht
    | _ => rfl
  not_end := by rwa [token_symbolAt ht]

end Token

/-! ## Matches -/

namespace Symbol

open Token

theorem endsEscaped_cons {escaped : Bool} {c : Char} {s : List Char} :
    EndsEscaped escaped (c :: s) ↔ EndsEscaped (c = '\\') s := by
  unfold EndsEscaped
  rw [List.getLast?_cons]
  cases s.getLast? <;> simp

namespace Recognizer

variable {c : Char} {s body rest : List Char} {n : Nat} {escaped : Bool}

theorem throughDollar?_append (h : IsFormula escaped body) (rest : List Char) :
    throughDollar? escaped (body ++ '$' :: rest) = some (body.length + 1) := by
  induction body generalizing escaped with
  | nil =>
      have hescaped : escaped = false := by simpa [EndsEscaped] using h.2
      simp [throughDollar?, hescaped]
  | cons c body ih =>
      have hc : ¬(c = '$' ∧ escaped = false) := by
        intro h
        obtain ⟨rfl, rfl⟩ := h
        have := h.1 [] body rfl
        simp [EndsEscaped] at this
      have hbody : IsFormula (c = '\\') body := by
        refine ⟨fun u v huv => ?_, fun hend => h.2 (endsEscaped_cons.2 hend)⟩
        exact endsEscaped_cons.1 (h.1 (c :: u) v (by rw [huv, List.cons_append]))
      rw [List.cons_append, throughDollar?, if_neg hc, ih hbody]
      rfl

theorem exists_of_throughDollar? (h : throughDollar? escaped s = some n) :
    ∃ body rest, s = body ++ '$' :: rest ∧ n = body.length + 1 ∧ IsFormula escaped body := by
  induction s generalizing escaped n with
  | nil => cases h
  | cons c s ih =>
      rw [throughDollar?] at h
      split at h
      · rename_i hc
        obtain ⟨rfl, rfl⟩ := hc
        cases h
        exact ⟨[], s, rfl, rfl, by simp, by simp [EndsEscaped]⟩
      · rename_i hc
        obtain ⟨m, hm, rfl⟩ := Option.map_eq_some_iff.1 h
        obtain ⟨body, rest, rfl, rfl, hfirst, hend⟩ := ih hm
        refine ⟨c :: body, rest, rfl, rfl, fun u v huv => ?_,
          fun hend' => hend (endsEscaped_cons.1 hend')⟩
        cases u with
        | nil =>
            have hdollar : c = '$' := (List.cons.inj huv).1
            simpa [EndsEscaped, hdollar] using hc
        | cons d u =>
            obtain ⟨rfl, htail⟩ := List.cons.inj huv
            exact endsEscaped_cons.2 (hfirst u v htail)

end Recognizer

theorem takeWhile_append_stop {p : Char → Bool} {s rest : List Char} (hs : ∀ c ∈ s, p c = true)
    (hrest : ∀ c ∈ rest.head?, p c = false) : (s ++ rest).takeWhile p = s := by
  rw [List.takeWhile_append_of_pos hs]
  cases rest with
  | nil => simp
  | cons c rest => simp [hrest c rfl]

/-- What is checked for each of the reserved characters. -/
theorem of_isReserved {p : Char → Bool}
    (h : ['\\', '{', '}', '$', '&', '#', '%', '_'].all p = true) {c : Char}
    (hc : isReserved c = true) : p c = true :=
  List.all_eq_true.1 h c (List.contains_iff_mem.1 hc)

theorem not_isLetter_of_isReserved {c : Char} (h : isReserved c = true) : isLetter c = false := by
  have hletter : (!isLetter c) = true := of_isReserved (p := fun c => !isLetter c) (by decide) h
  simpa using hletter

theorem not_isBlank_of_isReserved {c : Char} (h : isReserved c = true) : isBlank c = false := by
  have hblank : (!isBlank c) = true := of_isReserved (p := fun c => !isBlank c) (by decide) h
  simpa using hblank

theorem not_isReserved_of_isLetter {c : Char} (h : isLetter c = true) : isReserved c = false := by
  cases hc : isReserved c with
  | false => rfl
  | true =>
      rw [not_isLetter_of_isReserved hc] at h
      cases h

/-- The text that a recognizer makes of a token. -/
theorem textOf_chars {t : Token} {r : Recognizer} (hkind : r.kind = t.kind)
    (hr : r ∈ Recognizer.table)
    (rest : List Char) : r.textOf t.chars.length (t.chars ++ rest) = t.text.getD "" := by
  unfold Recognizer.textOf
  rw [List.take_append_of_le_length (Nat.sub_le _ _)]
  simp only [Recognizer.table, List.mem_cons, List.not_mem_nil, or_false] at hr
  rcases hr with rfl | rfl | rfl | rfl | rfl | rfl
  all_goals cases t <;> cases hkind
  all_goals simp [Token.chars, Token.text]

/-- A token is matched by the recognizer of its kind, if none before it matches. -/
theorem firstMatch?_of_length {t : Token} {rest : List Char} (before : List Recognizer)
    {after : List Recognizer} {r : Recognizer}
    (htable : Recognizer.table = before ++ r :: after) (hkind : r.kind = t.kind)
    (hbefore : ∀ q ∈ before, q.length? (t.chars ++ rest) = none)
    (hlength : r.length? (t.chars ++ rest) = some t.chars.length) :
    firstMatch? Recognizer.table (t.chars ++ rest) = some t.asMatch := by
  have hr : r ∈ Recognizer.table := by simp [htable]
  have hmatch : r.match? (t.chars ++ rest) = some t.asMatch := by
    rw [Recognizer.match?, hlength, Option.map_some, textOf_chars hkind hr, hkind]
    rfl
  have hnone : before.findSome? (·.match? (t.chars ++ rest)) = none := by
    rw [List.findSome?_eq_none_iff]
    intro q hq
    rw [Recognizer.match?, hbefore q hq]
    rfl
  unfold firstMatch?
  rw [htable, List.findSome?_append, hnone, List.findSome?_cons, hmatch]
  rfl

/-- The recognizers match a token that can be written, up to where it stops. -/
theorem firstMatch?_chars {t : Token} {rest : List Char} (hvalid : t.Valid) (ht : t ≠ .endOfSource)
    (hstops : t.Stops rest) : firstMatch? Recognizer.table (t.chars ++ rest) = some t.asMatch := by
  cases t with
  | endOfSource => exact absurd rfl ht
  | openBrace => rfl
  | closeBrace => rfl
  | special escape =>
      obtain ⟨c, hc, hescape⟩ := hvalid
      refine firstMatch?_of_length [] rfl rfl nofun ?_
      simp [Token.chars, hescape, Recognizer.specialLength?, hc]
  | word name =>
      obtain ⟨hne, hletters⟩ := hvalid
      obtain ⟨c, cs, hname⟩ := List.exists_cons_of_ne_nil hne
      rw [hname, List.forall_mem_cons] at hletters
      refine firstMatch?_of_length [_] rfl rfl ?_ ?_
      · simp [Token.chars, hname, Recognizer.specialLength?, not_isReserved_of_isLetter hletters.1]
      · simp [Token.chars, hname, Recognizer.wordLength?, hletters.1,
          takeWhile_append_stop hletters.2 hstops]
        omega
  | ordinary content =>
      obtain ⟨hne, -, hordinary⟩ := hvalid
      obtain ⟨c, cs, hcontent⟩ := List.exists_cons_of_ne_nil hne
      rw [hcontent, List.forall_mem_cons] at hordinary
      have hc : c ≠ '\\' ∧ c ≠ '{' ∧ c ≠ '}' := by
        refine ⟨?_, ?_, ?_⟩ <;> rintro rfl <;> exact absurd hordinary.1 (by decide)
      refine firstMatch?_of_length [_, _, _, _] rfl rfl ?_ ?_
      · simp [Token.chars, hcontent, Recognizer.specialLength?, Recognizer.wordLength?,
          Recognizer.charLength?, hc]
      · have hplain : ∀ x ∈ cs, (!isReserved x) = true := by simpa using hordinary.2
        have hrest : ∀ x ∈ rest.head?, (!isReserved x) = false := by
          simpa [Token.Stops] using hstops
        simp [Token.chars, hcontent, Recognizer.ordinaryLength?, hordinary.1,
          takeWhile_append_stop hplain hrest]
        omega
  | math body =>
      refine firstMatch?_of_length [_, _, _, _, _] rfl rfl ?_ ?_
      · simp [Token.chars, Recognizer.specialLength?, Recognizer.wordLength?,
          Recognizer.charLength?, Recognizer.ordinaryLength?, isReserved]
      · have hlength := Recognizer.throughDollar?_append hvalid rest
        simp [Token.chars, Recognizer.mathLength?, hlength]

theorem head?_dropWhile {p : Char → Bool} {s : List Char} :
    ∀ c ∈ (s.dropWhile p).head?, p c = false := by
  intro c hc
  exact Bool.eq_false_iff.2 fun hp => by
    have := List.head?_dropWhile_not p s
    rw [Option.mem_def.1 hc] at this
    simp [hp] at this

/-- A text begins with a token that can be written, up to where it stops. -/
def StartsWithToken (s : List Char) : Prop :=
  ∃ (t : Token) (rest : List Char), t.Valid ∧ t ≠ .endOfSource ∧ t.Stops rest ∧ s = t.chars ++ rest

section StartsWithToken

variable {s : List Char} {n : Nat}

theorem startsWithToken_of_special (h : Recognizer.specialLength? s = some n) :
    StartsWithToken s := by
  simp only [Recognizer.specialLength?] at h
  split at h
  · rename_i c rest
    split at h
    · rename_i hc
      have hchars : (String.ofList ['\\', c]).toList = ['\\', c] := by simp
      refine ⟨.special (String.ofList ['\\', c]), rest, ⟨c, hc, hchars⟩, by simp, trivial, ?_⟩
      simp [Token.chars]
    · cases h
  · cases h

theorem startsWithToken_of_word (h : Recognizer.wordLength? s = some n) : StartsWithToken s := by
  simp only [Recognizer.wordLength?] at h
  split at h
  · rename_i c rest
    split at h
    · rename_i hc
      have hletters : ∀ x ∈ c :: rest.takeWhile isLetter, isLetter x = true := by
        simpa [hc] using fun x => List.mem_takeWhile_imp
      refine ⟨.word (String.ofList (c :: rest.takeWhile isLetter)), rest.dropWhile isLetter,
        ⟨by simp, ?_⟩, by simp, head?_dropWhile, ?_⟩
      · simpa using hletters
      · simp [Token.chars]
    · cases h
  · cases h

/-- A token of one character. -/
theorem startsWithToken_of_char {c : Char} {t : Token} (hchars : t.chars = [c])
    (hvalid : t.Valid) (ht : t ≠ .endOfSource) (hstops : ∀ rest, t.Stops rest)
    (h : Recognizer.charLength? c s = some n) : StartsWithToken s := by
  simp only [Recognizer.charLength?] at h
  split at h
  · rename_i x rest
    split at h
    · rename_i hx
      refine ⟨t, rest, hvalid, ht, hstops rest, ?_⟩
      rw [hchars, hx]
      rfl
    · cases h
  · cases h

theorem startsWithToken_of_ordinary (hblank : ∀ c ∈ s.head?, isBlank c = false)
    (h : Recognizer.ordinaryLength? s = some n) : StartsWithToken s := by
  simp only [Recognizer.ordinaryLength?] at h
  split at h
  · rename_i c rest
    split at h
    · cases h
    · rename_i hc
      have hrest : ∀ x ∈ rest.takeWhile fun c => !isReserved c, isReserved x = false := by
        intro x hx
        simpa using List.mem_takeWhile_imp hx
      refine ⟨.ordinary (String.ofList (c :: rest.takeWhile fun c => !isReserved c)),
        rest.dropWhile fun c => !isReserved c, ⟨by simp, ?_, ?_⟩, by simp, ?_, ?_⟩
      · simpa using hblank
      · simpa [hc] using hrest
      · intro x hx
        simpa using head?_dropWhile x hx
      · simp [Token.chars]
  · cases h

theorem startsWithToken_of_math (h : Recognizer.mathLength? s = some n) : StartsWithToken s := by
  simp only [Recognizer.mathLength?] at h
  split at h
  · obtain ⟨k, hk, -⟩ := Option.map_eq_some_iff.1 h
    obtain ⟨body, rest, rfl, -, hbody⟩ := Recognizer.exists_of_throughDollar? hk
    refine ⟨.math (String.ofList body), rest, ?_, by simp, trivial, ?_⟩
    · simpa [Token.Valid] using hbody
    · simp [Token.chars]
  · cases h

/-- What the recognizers match is a token that can be written, up to where it
stops. -/
theorem startsWithToken_of_firstMatch? {m : Match} (hblank : ∀ c ∈ s.head?, isBlank c = false)
    (h : firstMatch? Recognizer.table s = some m) : StartsWithToken s := by
  obtain ⟨r, hr, hm⟩ := List.exists_of_findSome?_eq_some h
  obtain ⟨n, hn, -⟩ := Option.map_eq_some_iff.1 hm
  simp only [Recognizer.table, List.mem_cons, List.not_mem_nil, or_false] at hr
  rcases hr with rfl | rfl | rfl | rfl | rfl | rfl
  · exact startsWithToken_of_special hn
  · exact startsWithToken_of_word hn
  · exact startsWithToken_of_char (t := .openBrace) rfl trivial (by simp) (fun _ => trivial) hn
  · exact startsWithToken_of_char (t := .closeBrace) rfl trivial (by simp) (fun _ => trivial) hn
  · exact startsWithToken_of_ordinary hblank hn
  · exact startsWithToken_of_math hn

end StartsWithToken

/-! ## Scans -/

/-- No recognizer matches at the start of the text, which is not empty. -/
def Unrecognizable (s : List Char) : Prop :=
  s ≠ [] ∧ ∀ r ∈ Recognizer.table, r.length? s = none

theorem firstMatch?_eq_none {s : List Char} :
    firstMatch? Recognizer.table s = none ↔ ∀ r ∈ Recognizer.table, r.length? s = none := by
  simp [firstMatch?, List.findSome?_eq_none_iff, Recognizer.match?]

theorem chars_ne_nil {t : Token} (hvalid : t.Valid) (ht : t ≠ .endOfSource) : t.chars ≠ [] := by
  cases t with
  | endOfSource => exact absurd rfl ht
  | ordinary content => exact hvalid.1
  | special escape =>
      obtain ⟨c, -, hescape⟩ := hvalid
      rw [Token.chars, hescape]
      exact List.cons_ne_nil _ _
  | _ => exact List.cons_ne_nil _ _

/-- A token that can be written does not start with a blank. -/
theorem head?_chars {t : Token} (hvalid : t.Valid) : ∀ c ∈ t.chars.head?, isBlank c = false := by
  cases t with
  | ordinary content => exact hvalid.2.1
  | special escape =>
      obtain ⟨c, -, hescape⟩ := hvalid
      rw [Token.chars, hescape]
      rintro _ ⟨⟩
      decide
  | endOfSource => exact nofun
  | _ =>
      rintro _ ⟨⟩
      decide

theorem scanFrom_eq (offset : Nat) (s : List Char) :
    scanFrom Recognizer.table offset s =
      if s.dropWhile isBlank = [] then ⟨[], .complete (offset + (s.takeWhile isBlank).length)⟩
      else match firstMatch? Recognizer.table (s.dropWhile isBlank) with
        | none => ⟨[], .unrecognized (offset + (s.takeWhile isBlank).length)⟩
        | some m =>
          (scanFrom Recognizer.table (offset + (s.takeWhile isBlank).length + m.length)
            ((s.dropWhile isBlank).drop m.length)).cons
            ⟨m.kind, some m.text, offset + (s.takeWhile isBlank).length,
              offset + (s.takeWhile isBlank).length + m.length⟩ := by
  rw [scanFrom]
  by_cases hrest : s.dropWhile isBlank = []
  · rw [dif_pos hrest, if_pos hrest]
  · rw [dif_neg hrest, if_neg hrest]
    split
    · rename_i hm
      rw [hm]
    · rename_i m hm
      rw [hm]

theorem scanFrom_nil (offset : Nat) :
    scanFrom Recognizer.table offset [] = ⟨[], .complete offset⟩ := by
  rw [scanFrom_eq]
  rfl

theorem scanFrom_blank {c : Char} (hc : isBlank c = true) (offset : Nat) (s : List Char) :
    scanFrom Recognizer.table offset (c :: s) = scanFrom Recognizer.table (offset + 1) s := by
  have hsum : offset + ((s.takeWhile isBlank).length + 1) =
      offset + 1 + (s.takeWhile isBlank).length := by omega
  rw [scanFrom_eq, scanFrom_eq, List.dropWhile_cons_of_pos hc, List.takeWhile_cons_of_pos hc,
    List.length_cons, hsum]

/-- What a scan makes of a text that does not start with a blank. -/
theorem scanFrom_of_not_blank {s : List Char} (hs : s ≠ [])
    (hblank : ∀ c ∈ s.head?, isBlank c = false) (offset : Nat) :
    scanFrom Recognizer.table offset s =
      match firstMatch? Recognizer.table s with
      | none => ⟨[], .unrecognized offset⟩
      | some m => (scanFrom Recognizer.table (offset + m.length) (s.drop m.length)).cons
          ⟨m.kind, some m.text, offset, offset + m.length⟩ := by
  obtain ⟨c, rest, rfl⟩ := List.exists_cons_of_ne_nil hs
  have hc : ¬isBlank c = true := by simp [hblank c rfl]
  rw [scanFrom_eq, List.dropWhile_cons_of_neg hc, List.takeWhile_cons_of_neg hc, if_neg hs]
  rfl

theorem scanFrom_unrecognizable {s : List Char} (hblank : ∀ c ∈ s.head?, isBlank c = false)
    (hs : Unrecognizable s) (offset : Nat) :
    scanFrom Recognizer.table offset s = ⟨[], .unrecognized offset⟩ := by
  rw [scanFrom_of_not_blank hs.1 hblank, firstMatch?_eq_none.2 hs.2]

theorem scanFrom_token {t : Token} {rest : List Char} (hvalid : t.Valid) (ht : t ≠ .endOfSource)
    (hstops : t.Stops rest) (offset : Nat) :
    scanFrom Recognizer.table offset (t.chars ++ rest) =
      (scanFrom Recognizer.table (offset + t.chars.length) rest).cons (t.symbolAt offset) := by
  have hne := chars_ne_nil hvalid ht
  have hblank : ∀ c ∈ (t.chars ++ rest).head?, isBlank c = false := by
    obtain ⟨c, cs, hchars⟩ := List.exists_cons_of_ne_nil hne
    have hc := head?_chars hvalid c (by rw [hchars]; rfl)
    rw [hchars]
    rintro _ ⟨⟩
    exact hc
  rw [scanFrom_of_not_blank (List.append_ne_nil_of_left_ne_nil hne _) hblank,
    firstMatch?_chars hvalid ht hstops]
  show Scan.cons _
    (scanFrom _ (offset + t.chars.length) ((t.chars ++ rest).drop t.chars.length)) = _
  rw [List.drop_left]
  rfl

/-- A text is empty, or starts with a blank, with a token, or with what is no
token. -/
theorem scan_induction {motive : Nat → List Char → Prop}
    (atEnd : ∀ offset, motive offset [])
    (blank : ∀ offset c s, isBlank c = true → motive (offset + 1) s → motive offset (c :: s))
    (token : ∀ offset t rest, Token.Valid t → t ≠ .endOfSource → t.Stops rest →
      motive (offset + t.chars.length) rest → motive offset (t.chars ++ rest))
    (unrecognizable : ∀ offset s, (∀ c ∈ s.head?, isBlank c = false) → Unrecognizable s →
      motive offset s)
    (offset : Nat) (s : List Char) : motive offset s := by
  induction hn : s.length using Nat.strong_induction_on generalizing offset s with
  | _ n ih =>
      subst hn
      cases s with
      | nil => exact atEnd offset
      | cons c rest =>
          cases hc : isBlank c with
          | true => exact blank offset c rest hc (ih rest.length (Nat.lt_succ_self _) _ rest rfl)
          | false =>
              have hblank : ∀ x ∈ (c :: rest).head?, isBlank x = false := by
                rintro _ ⟨⟩
                exact hc
              cases hm : firstMatch? Recognizer.table (c :: rest) with
              | none =>
                  exact unrecognizable offset _ hblank
                    ⟨List.cons_ne_nil _ _, firstMatch?_eq_none.1 hm⟩
              | some m =>
                  -- a token is not empty, so the text behind it is shorter
                  obtain ⟨t, more, hvalid, ht, hstops, hs⟩ :=
                    startsWithToken_of_firstMatch? hblank hm
                  have hpos := List.length_pos_iff.2 (chars_ne_nil hvalid ht)
                  rw [hs]
                  refine token offset t more hvalid ht hstops (ih more.length ?_ _ more rfl)
                  rw [hs, List.length_append]
                  omega

/-! ## What a scan gives -/

/-- The offset of what follows the last symbol. -/
def Ending.offset : Ending → Nat
  | .complete length => length
  | .unrecognized offset => offset

/-- The symbols of a scan are those of tokens that can be written. -/
theorem valid_of_mem_scanFrom (offset : Nat) (s : List Char) :
    ∀ x ∈ (scanFrom Recognizer.table offset s).symbols, x.Proper ∧ x.token.Valid := by
  induction offset, s using scan_induction with
  | atEnd offset => simp [scanFrom_nil]
  | blank offset c s hc ih => rwa [scanFrom_blank hc]
  | unrecognizable offset s hblank hs => simp [scanFrom_unrecognizable hblank hs]
  | token offset t rest hvalid ht hstops ih =>
      rw [scanFrom_token hvalid ht hstops]
      refine List.forall_mem_cons.2 ⟨⟨Token.proper_symbolAt ht offset, ?_⟩, ih⟩
      rwa [Token.token_symbolAt ht]

/-- The offsets of a scan grow from symbol to symbol, up to what follows the
last one. -/
theorem sorted_scanFrom (offset : Nat) (s : List Char) :
    ((scanFrom Recognizer.table offset s).symbols.map (·.start) ++
      [(scanFrom Recognizer.table offset s).ending.offset]).Pairwise (· < ·) ∧
    ∀ k ∈ (scanFrom Recognizer.table offset s).symbols.map (·.start) ++
      [(scanFrom Recognizer.table offset s).ending.offset], offset ≤ k := by
  induction offset, s using scan_induction with
  | atEnd offset => simp [scanFrom_nil, Ending.offset]
  | unrecognizable offset s hblank hs =>
      simp [scanFrom_unrecognizable hblank hs, Ending.offset]
  | blank offset c s hc ih =>
      rw [scanFrom_blank hc]
      exact ⟨ih.1, fun k hk => Nat.le_of_succ_le (ih.2 k hk)⟩
  | token offset t rest hvalid ht hstops ih =>
      rw [scanFrom_token hvalid ht hstops]
      -- whatever comes later starts behind the token, and that has a character
      have hpos := List.length_pos_iff.2 (chars_ne_nil hvalid ht)
      have hlater : ∀ k ∈ (scanFrom Recognizer.table (offset + t.chars.length) rest).symbols.map
          (·.start) ++ [(scanFrom Recognizer.table (offset + t.chars.length) rest).ending.offset],
          offset < k := by
        intro k hk
        have := ih.2 k hk
        omega
      refine ⟨List.pairwise_cons.2 ⟨hlater, ih.1⟩, List.forall_mem_cons.2 ⟨Nat.le_refl _, ?_⟩⟩
      exact fun k hk => Nat.le_of_lt (hlater k hk)

/-- The symbols of a source start one behind the other, the end included. -/
theorem sorted_stream (source : List Char) :
    ((scan source).stream.map (·.start)).Pairwise (· < ·) := by
  have hsorted := (sorted_scanFrom 0 source).1
  unfold scan Scan.stream
  cases hending : (scanFrom Recognizer.table 0 source).ending with
  | complete length =>
      rw [hending] at hsorted
      rw [List.map_append]
      exact hsorted
  | unrecognized offset =>
      rw [Ending.symbols, List.append_nil]
      exact (List.pairwise_append.1 hsorted).1

/-- The symbols of a source start before text that cannot be recognized. -/
theorem start_lt_of_unrecognized {source : List Char} {offset : Nat}
    (h : (scan source).ending = .unrecognized offset) :
    ∀ x ∈ (scan source).stream, x.start < offset := by
  have hsorted := (sorted_scanFrom 0 source).1
  intro x hx
  unfold Scan.stream at hx
  unfold scan at h hx
  rw [h, Ending.symbols, List.append_nil] at hx
  rw [h] at hsorted
  have hbefore := (List.pairwise_append.1 hsorted).2.2
  exact hbefore _ (List.mem_map_of_mem hx) _ (List.mem_singleton_self _)

/-- The symbols of a scan end in front of what follows the last one. -/
theorem stop_le_ending (offset : Nat) (s : List Char) :
    ∀ x ∈ (scanFrom Recognizer.table offset s).symbols,
      x.stop ≤ (scanFrom Recognizer.table offset s).ending.offset := by
  induction offset, s using scan_induction with
  | atEnd offset => simp [scanFrom_nil]
  | blank offset c s hc ih => rwa [scanFrom_blank hc]
  | unrecognizable offset s hblank hs => simp [scanFrom_unrecognizable hblank hs]
  | token offset t rest hvalid ht hstops ih =>
      rw [scanFrom_token hvalid ht hstops]
      refine List.forall_mem_cons.2 ⟨?_, ih⟩
      refine (sorted_scanFrom (offset + t.chars.length) rest).2 _ ?_
      exact List.mem_append_right _ (List.mem_singleton_self _)

/-- Where a scan stops before the end, the text cannot be recognized. -/
theorem unrecognizable_of_scanFrom {offset stop : Nat} {s : List Char}
    (h : (scanFrom Recognizer.table offset s).ending = .unrecognized stop) :
    ∃ k, stop = offset + k ∧ Unrecognizable (s.drop k) := by
  induction offset, s using scan_induction with
  | atEnd offset =>
      rw [scanFrom_nil] at h
      cases h
  | unrecognizable offset s hblank hs =>
      rw [scanFrom_unrecognizable hblank hs] at h
      cases h
      exact ⟨0, rfl, hs⟩
  | blank offset c s hc ih =>
      rw [scanFrom_blank hc] at h
      obtain ⟨k, hk, hs⟩ := ih h
      exact ⟨k + 1, by omega, hs⟩
  | token offset t rest hvalid ht hstops ih =>
      rw [scanFrom_token hvalid ht hstops] at h
      obtain ⟨k, hk, hs⟩ := ih h
      refine ⟨t.chars.length + k, by omega, ?_⟩
      rwa [← List.drop_drop, List.drop_left]

/-- A run of ordinary characters is not followed by another one: what stops it
would have been part of it. -/
theorem not_isOrdinary_of_reserved {s : List Char} (hs : ∀ c ∈ s.head?, isReserved c = true)
    (offset : Nat) :
    ∀ t ∈ ((scanFrom Recognizer.table offset s).symbols.map token).head?, ¬t.IsOrdinary := by
  induction offset, s using scan_induction with
  | atEnd offset => simp [scanFrom_nil]
  | unrecognizable offset s hblank hunknown => simp [scanFrom_unrecognizable hblank hunknown]
  | blank offset c s hc ih =>
      -- a reserved character is no blank
      rw [not_isBlank_of_isReserved (hs c rfl)] at hc
      cases hc
  | token offset t rest hvalid ht hstops ih =>
      rw [scanFrom_token hvalid ht hstops]
      rintro _ ⟨⟩
      rw [Token.token_symbolAt ht]
      intro hordinary
      cases t with
      | ordinary content =>
          -- it would start with a reserved character
          obtain ⟨c, cs, hchars⟩ := List.exists_cons_of_ne_nil hvalid.1
          have hreserved := hs c (by rw [Token.chars, hchars]; rfl)
          rw [hvalid.2.2 c (by rw [hchars]; exact List.mem_cons_self)] at hreserved
          cases hreserved
      | _ => exact hordinary

theorem apart_scanFrom (offset : Nat) (s : List Char) :
    NoneAdjacent Token.IsOrdinary ((scanFrom Recognizer.table offset s).symbols.map token) := by
  induction offset, s using scan_induction with
  | atEnd offset =>
      rw [scanFrom_nil]
      exact .nil
  | unrecognizable offset s hblank hs =>
      rw [scanFrom_unrecognizable hblank hs]
      exact .nil
  | blank offset c s hc ih => rwa [scanFrom_blank hc]
  | token offset t rest hvalid ht hstops ih =>
      rw [scanFrom_token hvalid ht hstops]
      refine List.isChain_cons.2 ⟨fun next hnext hboth => ?_, ih⟩
      rw [Token.token_symbolAt ht] at hboth
      cases t with
      | ordinary content => exact not_isOrdinary_of_reserved hstops _ next hnext hboth.2
      | _ => exact hboth.1

end Symbol

/-! ## Writing -/

namespace Token

/-- A token as markup: a command word is followed by a blank. -/
def markup : Token → List Char
  | word name => (word name).chars ++ [' ']
  | t => t.chars

/-- What is written behind a run of ordinary characters stops it, if it is no
such run itself. -/
theorem head?_markup {ts : List Token} (hvalid : ∀ t ∈ ts, t.Valid ∧ t ≠ .endOfSource)
    (hts : ∀ t ∈ ts.head?, ¬t.IsOrdinary) :
    ∀ c ∈ (ts.flatMap markup).head?, isReserved c = true := by
  cases ts with
  | nil => exact nofun
  | cons t ts =>
      obtain ⟨hv, ht⟩ := hvalid t List.mem_cons_self
      cases t with
      | endOfSource => exact absurd rfl ht
      | ordinary => exact absurd trivial (hts _ rfl)
      | special escape =>
          obtain ⟨c, -, hescape⟩ := hv
          rw [List.flatMap_cons, markup, chars, hescape]
          · rintro _ ⟨⟩
            decide
          · exact nofun
      | _ =>
          rintro _ ⟨⟩
          decide

/-- Scanning gives back the tokens that are written. -/
theorem scanFrom_markup (offset : Nat) {ts : List Token}
    (hvalid : ∀ t ∈ ts, t.Valid ∧ t ≠ .endOfSource) (hapart : NoneAdjacent IsOrdinary ts) :
    (scanFrom Recognizer.table offset (ts.flatMap markup)).symbols.map Symbol.token = ts ∧
      (scanFrom Recognizer.table offset (ts.flatMap markup)).IsComplete := by
  induction ts generalizing offset with
  | nil =>
      rw [List.flatMap_nil, scanFrom_nil]
      exact ⟨rfl, offset, rfl⟩
  | cons t ts ih =>
      rw [List.forall_mem_cons] at hvalid
      obtain ⟨⟨hv, ht⟩, hvalids⟩ := hvalid
      obtain ⟨hnext, hapart'⟩ := List.isChain_cons.1 hapart
      -- the blank behind a command word is skipped with the next token
      have hstep : ∃ start, scanFrom Recognizer.table offset ((t :: ts).flatMap markup) =
          (scanFrom Recognizer.table start (ts.flatMap markup)).cons (t.symbolAt offset) := by
        rw [List.flatMap_cons]
        cases t with
        | word name =>
            -- the blank stops the word, and is the one skipped
            refine ⟨offset + (word name).chars.length + 1, ?_⟩
            rw [markup, List.append_assoc, scanFrom_token hv ht]
            · rw [List.singleton_append, scanFrom_blank (by decide)]
            · rintro _ ⟨⟩
              decide
        | ordinary content =>
            exact ⟨_, scanFrom_token hv ht (head?_markup hvalids fun u hu hboth =>
              hnext u hu ⟨trivial, hboth⟩) offset⟩
        | _ => exact ⟨_, scanFrom_token hv ht trivial offset⟩
      obtain ⟨start, hstart⟩ := hstep
      obtain ⟨htokens, length, hending⟩ := ih start hvalids hapart'
      rw [hstart]
      refine ⟨?_, length, hending⟩
      show Symbol.token _ :: List.map _ _ = _
      rw [token_symbolAt ht, htokens]

end Token

end AlgoBox
