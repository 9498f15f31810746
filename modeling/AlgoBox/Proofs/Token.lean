import AlgoBox.Symbol.Reader

/-!
# Tokens

What the grammar sees of a symbol is its kind and its text, not its place. A
`Token` is a symbol without its place; the tokens of a source are those of its
symbols in order, with the end of the source last if the source can be cut to
its end.

* `Symbol.Scan.stream`: the symbols of a source, the end of the source included;
* `Token.fits`: which tokens a wanted kind and text admit.
-/

namespace AlgoBox

/-- A symbol without its place. A command word is without its backslash and a formula
without its dollars, an escaped character with its backslash. -/
inductive Token where
  | word (name : String)
  | openBrace
  | closeBrace
  | ordinary (content : String)
  | special (escape : String)
  | math (body : String)
  | endOfSource
deriving DecidableEq

namespace Token

/-- The kind of a token. -/
def kind : Token → Symbol.Kind
  | word _ => .word
  | openBrace => .openBrace
  | closeBrace => .closeBrace
  | ordinary _ => .ordinary
  | special _ => .special
  | math _ => .math
  | endOfSource => .endOfSource

/-- The text of a token. -/
def text : Token → Option String
  | word s | ordinary s | special s | math s => some s
  | openBrace => some "\x7b"
  | closeBrace => some "\x7d"
  | endOfSource => none

/-- A token is of a kind and has a wanted text. -/
def fits (kind : Symbol.Kind) (wanted : Wanted) (t : Token) : Bool :=
  t.kind = kind && wanted.admits t.text

section Fits

variable {t : Token} {text : String} {texts : List String}

@[simp] theorem fits_word_only : t.fits .word (.only text) = true ↔ t = .word text := by
  cases t <;> simp [fits, kind, Wanted.admits, Token.text]

@[simp] theorem fits_word_oneOf :
    t.fits .word (.oneOf texts) = true ↔ ∃ name ∈ texts, t = .word name := by
  cases t <;> simp [fits, kind, Wanted.admits, Token.text]

@[simp] theorem fits_ordinary_only :
    t.fits .ordinary (.only text) = true ↔ t = .ordinary text := by
  cases t <;> simp [fits, kind, Wanted.admits, Token.text]

@[simp] theorem fits_ordinary_any :
    t.fits .ordinary .any = true ↔ ∃ content, t = .ordinary content := by
  cases t <;> simp [fits, kind, Wanted.admits]

@[simp] theorem fits_math_any : t.fits .math .any = true ↔ ∃ body, t = .math body := by
  cases t <;> simp [fits, kind, Wanted.admits]

@[simp] theorem fits_special_any : t.fits .special .any = true ↔ ∃ escape, t = .special escape := by
  cases t <;> simp [fits, kind, Wanted.admits]

@[simp] theorem fits_openBrace : t.fits .openBrace .any = true ↔ t = .openBrace := by
  cases t <;> simp [fits, kind, Wanted.admits]

@[simp] theorem fits_closeBrace : t.fits .closeBrace .any = true ↔ t = .closeBrace := by
  cases t <;> simp [fits, kind, Wanted.admits]

end Fits

end Token

namespace Symbol

/-- A symbol without its place. -/
def token (s : Symbol) : Token :=
  match s.kind with
  | .word => .word (s.text.getD "")
  | .openBrace => .openBrace
  | .closeBrace => .closeBrace
  | .ordinary => .ordinary (s.text.getD "")
  | .special => .special (s.text.getD "")
  | .math => .math (s.text.getD "")
  | .endOfSource => .endOfSource

@[simp] theorem kind_token (s : Symbol) : s.token.kind = s.kind := by
  unfold token
  cases s.kind <;> rfl

theorem kind_eq_endOfSource_iff {s : Symbol} :
    s.kind = .endOfSource ↔ s.token = .endOfSource := by
  unfold token
  cases hs : s.kind <;> simp

/-- A symbol inside a source: its text is that of its token, so the token tells
all but the place. -/
structure Proper (s : Symbol) : Prop where
  text_eq : s.text = s.token.text
  not_end : s.token ≠ .endOfSource

theorem Proper.kind_ne {s : Symbol} (h : s.Proper) : s.kind ≠ .endOfSource :=
  mt kind_eq_endOfSource_iff.1 h.not_end

/-- The symbols behind those of a cut: the end of the source, if the cut got
there. -/
def Ending.symbols : Ending → List Symbol
  | .complete length => [.atEnd length]
  | .unrecognized _ => []

/-- The symbols of a source, the end of the source included. -/
def Scan.stream (scan : Scan) : List Symbol := scan.symbols ++ scan.ending.symbols

/-- The tokens of a source. -/
def Scan.tokens (scan : Scan) : List Token := scan.stream.map token

/-- The source is cut to its end. -/
def Scan.IsComplete (scan : Scan) : Prop := ∃ length, scan.ending = .complete length

end Symbol

end AlgoBox
