import Mathlib.Data.Bool.AllAny
import Mathlib.Data.List.Chain
import SourceClosure.Json.Skip

/-!
# Tokens of JSON

A JSON text is a row of tokens with spacing between them. This module says what tokens there are,
which rows of them are values (`Form`), and what it means for a text to consist of given tokens
with something between them (`Layout`). A form also says where commas may be added that strict JSON
does not have: one before the closing bracket of each list or object that has parts.
-/

namespace SourceClosure

namespace Json

/-! ## Strings and numbers as they are written -/

/-- The letters and marks that stand for a character behind a backslash. -/
def escapable : Text :=
  "\"\\/bfnrt".toList

/-- Whether the character is a hexadecimal digit. -/
def isHexDigit (c : Char) : Bool :=
  c.isDigit || ('a' ≤ c && c ≤ 'f') || ('A' ≤ c && c ≤ 'F')

/-- What may stand between the quotation marks of a string. -/
inductive IsQuoted : Text → Prop where
  | nil : IsQuoted []
  | plain {c : Char} {t : Text} : c ≠ '"' → c ≠ '\\' → ' ' ≤ c → IsQuoted t → IsQuoted (c :: t)
  | short {c : Char} {t : Text} : c ∈ escapable → IsQuoted t → IsQuoted ('\\' :: c :: t)
  | unit {a b c d : Char} {t : Text} : isHexDigit a = true → isHexDigit b = true →
      isHexDigit c = true → isHexDigit d = true → IsQuoted t →
      IsQuoted ('\\' :: 'u' :: a :: b :: c :: d :: t)

/-- Characters that need no escape may stand in a string. -/
theorem isQuoted_of_forall {t : Text} (h : ∀ c ∈ t, c ≠ '"' ∧ c ≠ '\\' ∧ ' ' ≤ c) : IsQuoted t := by
  induction t with
  | nil => exact .nil
  | cons c t ih =>
    obtain ⟨⟨hquote, hback, hcontrol⟩, ht⟩ := List.forall_mem_cons.1 h
    exact .plain hquote hback hcontrol (ih ht)

/-- A run of digits. -/
structure IsDigits (t : Text) : Prop where
  ne_nil : t ≠ []
  isDigit : ∀ c ∈ t, c.isDigit = true

/-- The digits before the point, of which the first is no zero unless it is alone. -/
structure IsWhole (t : Text) : Prop extends IsDigits t where
  zero : t.head? = some '0' → t = ['0']

/-- A point with digits, or nothing. -/
def IsFraction (t : Text) : Prop :=
  t = [] ∨ ∃ digits, IsDigits digits ∧ t = '.' :: digits

/-- The mark of an exponent with a sign or none and with digits, or nothing. -/
def IsExponent (t : Text) : Prop :=
  t = [] ∨ ∃ mark sign digits, (mark = 'e' ∨ mark = 'E') ∧
    (sign = [] ∨ sign = ['+'] ∨ sign = ['-']) ∧ IsDigits digits ∧ t = mark :: (sign ++ digits)

/-- A number. -/
def IsNumber (t : Text) : Prop :=
  ∃ minus whole fraction exponent, (minus = [] ∨ minus = ['-']) ∧ IsWhole whole ∧
    IsFraction fraction ∧ IsExponent exponent ∧ t = minus ++ (whole ++ (fraction ++ exponent))

/-! ## Tokens -/

/-- A token of a JSON text. -/
inductive Token where
  | opening (b : Bracket)
  | closing (b : Bracket)
  | comma
  | colon
  | null
  | bool (b : Bool)
  /-- A string, by what stands between its quotation marks. -/
  | string (body : Text) (h : IsQuoted body)
  /-- A number as it is written. -/
  | number (digits : Text) (h : IsNumber digits)

/-- The character that opens the bracket. -/
def Bracket.opening : Bracket → Char
  | .list => '['
  | .object => '{'

namespace Token

/-- The token as it is written. -/
def text : Token → Text
  | opening b => [b.opening]
  | closing b => [b.closing]
  | comma => [',']
  | colon => [':']
  | null => "null".toList
  | bool true => "true".toList
  | bool false => "false".toList
  | string body _ => '"' :: (body ++ ['"'])
  | number digits _ => digits

/-- Whether the token is a number. -/
def isNumeric : Token → Bool
  | number _ _ => true
  | _ => false

/-- Whether the token is a closing bracket. -/
def isClosing : Token → Bool
  | closing _ => true
  | _ => false

/-- The second token may follow the first in strict JSON, as far as running into each other and
commas before closing brackets are concerned. -/
structure Precedes (a b : Token) : Prop where
  number : a.isNumeric = true → b.isNumeric = false
  comma : a = .comma → b.isClosing = false

end Token

/-! ## Forms -/

/-- The parts of the grammar. -/
inductive Part where
  | value
  /-- An item of a list, or a member of an object. -/
  | entry (b : Bracket)
  /-- One or more items or members. -/
  | entries (b : Bracket)

/-- How a part of the grammar is made up, and after which of its lists and objects one more comma
is put. -/
inductive Form : Part → Type where
  | null : Form .value
  | bool (b : Bool) : Form .value
  | string (body : Text) (h : IsQuoted body) : Form .value
  | number (digits : Text) (h : IsNumber digits) : Form .value
  /-- A list or object without parts. -/
  | empty (b : Bracket) : Form .value
  /-- A list or object with parts, and whether one more comma is put behind them. -/
  | full (b : Bracket) (entries : Form (.entries b)) (trailing : Bool) : Form .value
  | item (value : Form .value) : Form (.entry .list)
  | member (name : Text) (h : IsQuoted name) (value : Form .value) : Form (.entry .object)
  | last {b : Bracket} (entry : Form (.entry b)) : Form (.entries b)
  | more {b : Bracket} (entry : Form (.entry b)) (entries : Form (.entries b)) : Form (.entries b)

namespace Form

/-- The tokens of a form, with the commas that are put behind parts if `relaxed` is set. -/
def tokens (relaxed : Bool) {k : Part} : Form k → List Token
  | null => [.null]
  | bool b => [.bool b]
  | string body h => [.string body h]
  | number digits h => [.number digits h]
  | empty b => [.opening b, .closing b]
  | full b entries trailing =>
    .opening b :: (entries.tokens relaxed ++
      ((if relaxed && trailing then [.comma] else []) ++ [.closing b]))
  | item value => value.tokens relaxed
  | member name h value => .string name h :: .colon :: value.tokens relaxed
  | last entry => entry.tokens relaxed
  | more entry entries => entry.tokens relaxed ++ .comma :: entries.tokens relaxed

end Form

/-! ## Layouts -/

/-- A token with what stands before it. -/
structure Piece where
  gap : Text
  token : Token

/-- The text of pieces, with what stands behind the last. -/
def render : List Piece → Text → Text
  | [], last => last
  | p :: ps, last => p.gap ++ (p.token.text ++ render ps last)

/-- The text consists of these tokens, with `gap` before each and `last` behind them. -/
def Layout (gap last : Text → Prop) (ts : List Token) (t : Text) : Prop :=
  ∃ ps w, ps.map Piece.token = ts ∧ (∀ p ∈ ps, gap p.gap) ∧ last w ∧ t = render ps w

/-- Nothing but the characters that may stand between the tokens of strict JSON. -/
def IsSpacing (t : Text) : Prop :=
  ∀ c ∈ t, isSpace c = true

/-- The text is strict JSON with these tokens. -/
def Spaced (ts : List Token) (t : Text) : Prop :=
  Layout IsSpacing IsSpacing ts t

/-! ## Rows of strict tokens -/

/-- A row of tokens that may follow each other, to be put between a bracket or a comma on either
side. -/
structure Row (ts : List Token) : Prop where
  ne_nil : ts ≠ []
  chain : ts.IsChain Token.Precedes
  head : ∀ a ∈ ts.head?, a.isClosing = false
  last : ∀ a ∈ ts.getLast?, a ≠ .comma

namespace Row

theorem single {a : Token} (hclosing : a.isClosing = false) (hcomma : a ≠ .comma) : Row [a] where
  ne_nil := List.cons_ne_nil a []
  chain := List.isChain_singleton a
  head := by simpa using hclosing
  last := by simpa using hcomma

/-- A token that is neither a number nor a comma goes before a row. -/
theorem cons {a : Token} {ts : List Token} (h : Row ts) (hnumber : a.isNumeric = false)
    (hclosing : a.isClosing = false) (hcomma : a ≠ .comma) : Row (a :: ts) where
  ne_nil := List.cons_ne_nil a ts
  chain := by
    refine List.isChain_cons.2 ⟨fun b _ => ⟨fun ha => ?_, fun ha => absurd ha hcomma⟩, h.chain⟩
    rw [hnumber] at ha
    cases ha
  head := by simpa using hclosing
  last := by
    rw [List.getLast?_cons_of_ne_nil h.ne_nil]
    exact h.last

/-- A comma goes between rows. -/
theorem append {ts us : List Token} (ht : Row ts) (hu : Row us) : Row (ts ++ .comma :: us) where
  ne_nil := by simp
  chain := by
    refine List.isChain_append.2 ⟨ht.chain, List.isChain_cons.2 ⟨?_, hu.chain⟩, ?_⟩
    · exact fun b hb => ⟨(fun ha => nomatch ha), fun _ => hu.head b hb⟩
    · rintro a ha b ⟨⟩
      exact ⟨fun _ => rfl, fun heq => absurd heq (ht.last a ha)⟩
  head := by
    rw [List.head?_append_of_ne_nil _ ht.ne_nil]
    exact ht.head
  last := by
    rw [List.getLast?_append, List.getLast?_cons_of_ne_nil hu.ne_nil,
      List.getLast?_eq_some_getLast hu.ne_nil]
    simpa using hu.last _ (List.getLast?_eq_some_getLast hu.ne_nil)

/-- Brackets go around a row. -/
theorem bracket {ts : List Token} (h : Row ts) (b : Bracket) :
    Row (.opening b :: (ts ++ [.closing b])) where
  ne_nil := List.cons_ne_nil _ _
  chain := by
    refine List.isChain_cons.2 ⟨fun _ _ => ⟨(fun ha => nomatch ha), (fun heq => nomatch heq)⟩, ?_⟩
    refine List.isChain_append.2 ⟨h.chain, List.isChain_singleton _, ?_⟩
    rintro a ha b ⟨⟩
    exact ⟨fun _ => rfl, fun heq => absurd heq (h.last a ha)⟩
  head := by simp [Token.isClosing]
  last := by
    rw [← List.cons_append, List.getLast?_append]
    simp

/-- Brackets go around nothing. -/
theorem brackets (b : Bracket) : Row [.opening b, .closing b] where
  ne_nil := List.cons_ne_nil _ _
  chain := List.isChain_pair.2 ⟨(fun ha => nomatch ha), (fun heq => nomatch heq)⟩
  head := by simp [Token.isClosing]
  last := by simp

end Row

/-- The tokens of a form without additional commas are a row. -/
theorem Form.row_tokens {k : Part} (f : Form k) : Row (f.tokens false) := by
  induction f with
  | null => exact .single rfl (fun h => nomatch h)
  | bool => exact .single rfl (fun h => nomatch h)
  | string => exact .single rfl (fun h => nomatch h)
  | number => exact .single rfl (fun h => nomatch h)
  | empty b => exact .brackets b
  | full b entries trailing ih => exact ih.bracket b
  | item value ih => exact ih
  | member name h value ih =>
    have hcolon : Row (.colon :: value.tokens false) := ih.cons rfl rfl (fun h => nomatch h)
    exact hcolon.cons rfl rfl (fun h => nomatch h)
  | last entry ih => exact ih
  | more entry entries ih ihs => exact ih.append ihs

/-! ## How tokens start -/

theorem IsDigits.exists_cons {t : Text} (h : IsDigits t) :
    ∃ c rest, t = c :: rest ∧ c.isDigit = true := by
  obtain ⟨c, rest, rfl⟩ := List.exists_cons_of_ne_nil h.ne_nil
  exact ⟨c, rest, rfl, h.isDigit c List.mem_cons_self⟩

/-- The marks that a number may have besides digits. -/
def numberMarks : Text :=
  "+-.eE".toList

theorem IsNumber.mem {t : Text} (h : IsNumber t) {c : Char} (hc : c ∈ t) :
    c.isDigit = true ∨ c ∈ numberMarks := by
  obtain ⟨minus, whole, fraction, exponent, hminus, hwhole, hfraction, hexponent, rfl⟩ := h
  have hplus : '+' ∈ numberMarks ∧ '-' ∈ numberMarks ∧ '.' ∈ numberMarks ∧ 'e' ∈ numberMarks ∧
    'E' ∈ numberMarks := by decide
  simp only [List.mem_append] at hc
  rcases hc with hc | hc | hc | hc
  · rcases hminus with rfl | rfl
    · cases hc
    · rw [List.mem_singleton.1 hc]
      exact .inr hplus.2.1
  · exact .inl (hwhole.isDigit c hc)
  · rcases hfraction with rfl | ⟨digits, hdigits, rfl⟩
    · cases hc
    · rcases List.mem_cons.1 hc with rfl | hc
      · exact .inr hplus.2.2.1
      · exact .inl (hdigits.isDigit c hc)
  · rcases hexponent with rfl | ⟨mark, sign, digits, hmark, hsign, hdigits, rfl⟩
    · cases hc
    · rcases List.mem_cons.1 hc with rfl | hc
      · rcases hmark with rfl | rfl
        · exact .inr hplus.2.2.2.1
        · exact .inr hplus.2.2.2.2
      · rcases List.mem_append.1 hc with hc | hc
        · rcases hsign with rfl | rfl | rfl
          · cases hc
          · rw [List.mem_singleton.1 hc]
            exact .inr hplus.1
          · rw [List.mem_singleton.1 hc]
            exact .inr hplus.2.1
        · exact .inl (hdigits.isDigit c hc)

/-- A number starts with a minus sign or a digit. -/
theorem IsNumber.exists_cons {t : Text} (h : IsNumber t) :
    ∃ c rest, t = c :: rest ∧ (c = '-' ∨ c.isDigit = true) := by
  obtain ⟨minus, whole, fraction, exponent, hminus, hwhole, -, -, rfl⟩ := h
  rcases hminus with rfl | rfl
  · obtain ⟨c, rest, rfl, hc⟩ := hwhole.toIsDigits.exists_cons
    exact ⟨c, rest ++ (fraction ++ exponent), rfl, .inr hc⟩
  · exact ⟨'-', whole ++ (fraction ++ exponent), rfl, .inl rfl⟩

namespace Token

/-- The first character of a token. -/
def mark (a : Token) : Char :=
  a.text.headD ' '

theorem text_eq_cons (a : Token) : a.text = a.mark :: a.text.tail := by
  cases a with
  | bool b => cases b <;> rfl
  | number digits h =>
    obtain ⟨c, rest, rfl, -⟩ := h.exists_cons
    rfl
  | _ => rfl

theorem text_append (a : Token) (r : Text) : a.text ++ r = a.mark :: (a.text.tail ++ r) :=
  congrArg (· ++ r) a.text_eq_cons

theorem mark_number {digits : Text} (h : IsNumber digits) :
    (number digits h).mark = '-' ∨ (number digits h).mark.isDigit = true := by
  obtain ⟨c, rest, rfl, hc⟩ := h.exists_cons
  exact hc

theorem mark_number_ne {digits : Text} (h : IsNumber digits) {c : Char} (hminus : c ≠ '-')
    (hdigit : c.isDigit = false) : (number digits h).mark ≠ c := by
  rintro rfl
  rcases mark_number h with hc | hc
  · exact hminus hc
  · rw [hc] at hdigit
    cases hdigit

theorem number_append {digits : Text} (h : IsNumber digits) (r : Text) :
    digits ++ r = (number digits h).mark :: ((number digits h).text.tail ++ r) :=
  (number digits h).text_append r

/-- No other scalar starts as a number does. -/
theorem mark_number_ne_scalar {digits : Text} (h : IsNumber digits) :
    (number digits h).mark ≠ 'n' ∧ (number digits h).mark ≠ 't' ∧
      (number digits h).mark ≠ 'f' ∧ (number digits h).mark ≠ '"' := by
  refine ⟨?_, ?_, ?_, ?_⟩ <;> exact mark_number_ne h (by decide) (by decide)

/-- Whoever tells scalars from each other by their first character comes to the case of numbers. -/
theorem dispatch_number {α : Type} {digits : Text} (h : IsNumber digits)
    (null yes no string number other : α) :
    (let c := (Token.number digits h).mark
      if c = 'n' then null
      else if c = 't' then yes
      else if c = 'f' then no
      else if c = '"' then string
      else if c = '-' ∨ c.isDigit = true then number
      else other) = number := by
  obtain ⟨hnull, hyes, hno, hstring⟩ := mark_number_ne_scalar h
  dsimp only
  rw [if_neg hnull, if_neg hyes, if_neg hno, if_neg hstring, if_pos (mark_number h)]

/-- Whether there is only one way to write the token. -/
def isFixed : Token → Bool
  | string _ _ | number _ _ => false
  | _ => true

/-- The token that starts with the character, if there is only one way to write it. -/
def ofMark? : Char → Option Token
  | '[' => some (opening .list)
  | '\x7b' => some (opening .object)
  | ']' => some (closing .list)
  | '\x7d' => some (closing .object)
  | ',' => some comma
  | ':' => some colon
  | 'n' => some null
  | 't' => some (bool true)
  | 'f' => some (bool false)
  | _ => none

theorem ofMark?_mark {a : Token} (h : a.isFixed = true) : ofMark? a.mark = some a := by
  cases a with
  | opening b => cases b <;> rfl
  | closing b => cases b <;> rfl
  | bool b => cases b <;> rfl
  | string | number => cases h
  | _ => rfl

/-- A token that can be written in one way only is told from all others by its first character. -/
theorem mark_eq_mark_iff {a b : Token} (hb : b.isFixed = true) : a.mark = b.mark ↔ a = b := by
  have hother : b.mark ≠ '-' ∧ b.mark.isDigit = false ∧ b.mark ≠ '"' := by
    cases b with
    | opening b => cases b <;> decide
    | closing b => cases b <;> decide
    | bool b => cases b <;> decide
    | string | number => cases hb
    | _ => decide
  refine ⟨fun h => ?_, congrArg mark⟩
  cases ha : a.isFixed with
  | true => exact Option.some.inj (ofMark?_mark ha ▸ h ▸ ofMark?_mark hb)
  | false =>
    cases a with
    | string body _ => exact absurd h.symm hother.2.2
    | number digits hdigits => exact absurd h (mark_number_ne hdigits hother.1 hother.2.1)
    | _ => cases ha

theorem mark_eq_comma_iff {a : Token} : a.mark = ',' ↔ a = comma :=
  mark_eq_mark_iff (b := comma) rfl

theorem mark_eq_colon_iff {a : Token} : a.mark = ':' ↔ a = colon :=
  mark_eq_mark_iff (b := colon) rfl

theorem mark_eq_null_iff {a : Token} : a.mark = 'n' ↔ a = null :=
  mark_eq_mark_iff (b := null) rfl

theorem mark_eq_closing_iff {a : Token} {b : Bracket} : a.mark = b.closing ↔ a = closing b :=
  mark_eq_mark_iff (b := closing b) rfl

theorem mark_eq_opening_iff {a : Token} {b : Bracket} : a.mark = b.opening ↔ a = opening b :=
  mark_eq_mark_iff (b := opening b) rfl

theorem mark_eq_quote_iff {a : Token} : a.mark = '"' ↔ ∃ body h, a = string body h := by
  cases a with
  | opening b => cases b <;> simp [mark, text, Bracket.opening]
  | closing b => cases b <;> simp [mark, text, Bracket.closing]
  | bool b => cases b <;> simp [mark, text]
  | number digits h => simpa using mark_number_ne h (by decide) (by decide)
  | string body h => simp [mark, text, h]
  | _ => simp [mark, text]

theorem isSpace_mark (a : Token) : isSpace a.mark = false := by
  cases a with
  | opening b => cases b <;> decide
  | closing b => cases b <;> decide
  | comma => decide
  | colon => decide
  | null => decide
  | bool b => cases b <;> decide
  | string body h => exact (by decide : isSpace '"' = false)
  | number digits h =>
    simp only [isSpace, Bool.or_eq_false_iff, beq_eq_false_iff_ne]
    refine ⟨⟨⟨?_, ?_⟩, ?_⟩, ?_⟩ <;> exact mark_number_ne h (by decide) (by decide)

end Token

/-! ## Texts by their first token -/

theorem layout_nil_iff {gap last : Text → Prop} {t : Text} : Layout gap last [] t ↔ last t := by
  constructor
  · rintro ⟨ps, w, hps, -, hw, rfl⟩
    obtain rfl := List.map_eq_nil_iff.1 hps
    exact hw
  · intro h
    exact ⟨[], t, rfl, by simp, h, rfl⟩

theorem layout_cons_iff {gap last : Text → Prop} {a : Token} {ts : List Token} {t : Text} :
    Layout gap last (a :: ts) t ↔
      ∃ g r, gap g ∧ Layout gap last ts r ∧ t = g ++ (a.text ++ r) := by
  constructor
  · rintro ⟨ps, w, hps, hgap, hw, rfl⟩
    obtain ⟨p, ps, rfl, rfl, rfl⟩ := List.map_eq_cons_iff.1 hps
    refine ⟨p.gap, render ps w, hgap p List.mem_cons_self, ⟨ps, w, rfl, ?_, hw, rfl⟩, rfl⟩
    exact fun q hq => hgap q (List.mem_cons_of_mem p hq)
  · rintro ⟨g, r, hg, ⟨ps, w, rfl, hgap, hw, rfl⟩, rfl⟩
    refine ⟨⟨g, a⟩ :: ps, w, rfl, ?_, hw, rfl⟩
    intro q hq
    rcases List.mem_cons.1 hq with rfl | hq
    · exact hg
    · exact hgap q hq

theorem skipSpace_append {g : Text} (hg : IsSpacing g) (t : Text) :
    skipSpace (g ++ t) = skipSpace t := by
  rw [skipSpace, List.dropWhile_append_of_pos hg, skipSpace]

namespace Spaced

variable {a : Token} {ts : List Token} {t : Text}

theorem skipSpace_nil (h : Spaced [] t) : skipSpace t = [] := by
  have hspace := skipSpace_append (layout_nil_iff.1 h) []
  rwa [List.append_nil] at hspace

/-- Behind the spacing stands the first token. -/
theorem skipSpace_cons (h : Spaced (a :: ts) t) :
    ∃ r, Spaced ts r ∧ skipSpace t = a.mark :: (a.text.tail ++ r) := by
  obtain ⟨g, r, hg, hr, rfl⟩ := layout_cons_iff.1 h
  refine ⟨r, hr, ?_⟩
  rw [skipSpace_append hg, a.text_append, skipSpace,
    List.dropWhile_cons_of_neg (by simp [a.isSpace_mark])]

/-- A token may stand right before a text. -/
theorem cons (h : Spaced ts t) (a : Token) : Spaced (a :: ts) (a.mark :: (a.text.tail ++ t)) := by
  refine layout_cons_iff.2 ⟨[], t, by simp [IsSpacing], h, ?_⟩
  rw [List.nil_append, a.text_append]

/-- Every token takes at least one character. -/
theorem length_le (h : Spaced ts t) : ts.length ≤ t.length := by
  induction ts generalizing t with
  | nil => exact Nat.zero_le _
  | cons a ts ih =>
    obtain ⟨g, r, -, hr, rfl⟩ := layout_cons_iff.1 h
    have hlength := ih hr
    rw [a.text_eq_cons]
    simp only [List.length_append, List.length_cons]
    omega

end Spaced

end Json

end SourceClosure
