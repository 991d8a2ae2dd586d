import SourceClosure.Proofs.Jsonc.Layout

/-!
# The passes from left to right

Both passes over a relaxed text carry what they put out along. Read from left to right, the first
pass keeps something of each string, comment or other character in turn (`opens`), and the second
pass puts out each character except a comma that only blank characters part from a closing bracket
(`passes_comma`).
-/

namespace SourceClosure

namespace Jsonc

/-! ## What is kept -/

/-- What the first pass keeps of a text from a place on. -/
def keptFrom : Place → Text → Text
  | place, [] => place.final
  | place, c :: t => (place.step c).2 ++ keptFrom (place.step c).1 t

theorem keptFrom_cons (place : Place) (c : Char) (t : Text) :
    keptFrom place (c :: t) = (place.step c).2 ++ keptFrom (place.step c).1 t := rfl

theorem scanComments_kept (place : Place) (kept t : Text) :
    (scanComments place kept t).2.reverse ++ (scanComments place kept t).1.final =
      kept.reverse ++ keptFrom place t := by
  induction t generalizing place kept with
  | nil => rfl
  | cons c t ih => simp [scanComments_cons, ih, keptFrom_cons]

theorem stripComments_eq_keptFrom (t : Text) : stripComments t = keptFrom .code t :=
  scanComments_kept .code [] t

/-- What a scan from the one place to the other keeps comes before what is kept from there on. -/
theorem keptFrom_append_of_scan {place next : Place} {s k : Text}
    (h : ∀ kept, scanComments place kept s = (next, k.reverse ++ kept)) (t : Text) :
    keptFrom place (s ++ t) = k ++ keptFrom next t := by
  have hkept := scanComments_kept place [] (s ++ t)
  rw [scanComments_append, h, List.append_nil, scanComments_kept] at hkept
  simpa using hkept.symm

theorem keptFrom_code_cons {c : Char} (h : c ≠ '/') (t : Text) :
    keptFrom .code (c :: t) = c :: keptFrom (if c = '"' then .string else .code) t := by
  rw [keptFrom_cons, Place.step, enterCode]
  split <;> rfl

/-- A slash that starts no comment is kept. -/
theorem keptFrom_slash {t : Text} (hline : t.head? ≠ some '/') (hblock : t.head? ≠ some '*') :
    keptFrom .slash t = '/' :: keptFrom .code t := by
  cases t with
  | nil => rfl
  | cons c t =>
    have hc : c ≠ '/' ∧ c ≠ '*' := by simpa using And.intro hline hblock
    simp [keptFrom_cons, Place.step, hc]

/-! ## Comments that end, and comments that do not -/

/-- A text either has a first end of a block comment or none. -/
theorem exists_first_end (t : Text) :
    (∃ body rest, t = body ++ '*' :: '/' :: rest ∧ ¬ "*/".toList <:+: body) ∨
      ¬ "*/".toList <:+: t := by
  induction t with
  | nil => exact .inr (by simp)
  | cons c t ih =>
    by_cases hfirst : "*/".toList <+: c :: t
    · obtain ⟨rest, hrest⟩ := hfirst
      exact .inl ⟨[], rest, hrest.symm, by simp⟩
    · rcases ih with ⟨body, rest, rfl, hbody⟩ | hnone
      · refine .inl ⟨c :: body, rest, rfl, fun hinfix => ?_⟩
        rcases List.infix_cons_iff.1 hinfix with hstart | hinfix
        · refine hfirst (hstart.trans ?_)
          rw [← List.cons_append]
          exact List.prefix_append _ _
        · exact hbody hinfix
      · refine .inr (fun hinfix => ?_)
        rcases List.infix_cons_iff.1 hinfix with hstart | hinfix
        · exact hfirst hstart
        · exact hnone hinfix

/-- A text either has a first line break or none. -/
theorem exists_first_line (t : Text) :
    (∃ body rest, t = body ++ '\n' :: rest ∧ '\n' ∉ body) ∨ '\n' ∉ t := by
  by_cases h : '\n' ∈ t
  · exact .inl (List.eq_append_cons_of_mem h)
  · exact .inr h

/-- The body of a comment that does not end leaves its line breaks behind. -/
theorem keptFrom_block {body : Text} (h : ¬ "*/".toList <:+: body) {asterisk : Bool}
    (hstart : asterisk = true → body.head? ≠ some '/') :
    keptFrom (.block asterisk) body = body.filter (· = '\n') := by
  obtain ⟨last, hlast⟩ := scanComments_body h hstart []
  have hkept := scanComments_kept (.block asterisk) [] body
  rw [hlast] at hkept
  simpa [Place.final] using hkept.symm

/-! ## How a text starts -/

/-- How a text outside of strings and comments starts, and what is kept of it. -/
inductive Opens : Text → Text → Prop where
  | nil : Opens [] []
  | line {body t : Text} : '\n' ∉ body →
      Opens ('/' :: '/' :: (body ++ '\n' :: t)) ('\n' :: keptFrom .code t)
  | lastLine {body : Text} : '\n' ∉ body → Opens ('/' :: '/' :: body) []
  | block {body t : Text} : ¬ "*/".toList <:+: body →
      Opens ('/' :: '*' :: (body ++ '*' :: '/' :: t))
        (body.filter (· = '\n') ++ keptFrom .code t)
  | lastBlock {body : Text} : ¬ "*/".toList <:+: body →
      Opens ('/' :: '*' :: body) (body.filter (· = '\n'))
  /-- A slash that starts no comment. -/
  | slash {t : Text} : t.head? ≠ some '/' → t.head? ≠ some '*' →
      Opens ('/' :: t) ('/' :: keptFrom .code t)
  /-- Another character; a quotation mark starts a string. -/
  | char {c : Char} {t : Text} : c ≠ '/' →
      Opens (c :: t) (c :: keptFrom (if c = '"' then .string else .code) t)

theorem opens_line (t : Text) : Opens ('/' :: '/' :: t) (keptFrom .line t) := by
  rcases exists_first_line t with ⟨body, rest, rfl, hbody⟩ | hbody
  · have hkept : keptFrom .line (body ++ '\n' :: rest) = '\n' :: keptFrom .code rest :=
      keptFrom_append_of_scan (k := []) (fun kept => scanComments_line hbody kept) _
    rw [hkept]
    exact .line hbody
  · have hkept := scanComments_kept .line [] t
    rw [scanComments_line hbody] at hkept
    have hnone : keptFrom .line t = [] := by simpa [Place.final] using hkept.symm
    rw [hnone]
    exact .lastLine hbody

theorem opens_block (t : Text) : Opens ('/' :: '*' :: t) (keptFrom (.block false) t) := by
  have hfresh {body : Text} : false = true → body.head? ≠ some '/' := by simp
  rcases exists_first_end t with ⟨body, rest, rfl, hbody⟩ | hbody
  · have hkept : keptFrom (.block false) ((body ++ ['*', '/']) ++ rest) =
        body.filter (· = '\n') ++ keptFrom .code rest :=
      keptFrom_append_of_scan (fun kept => scanComments_block hbody hfresh kept) _
    rw [List.append_assoc] at hkept
    exact hkept ▸ .block hbody
  · rw [keptFrom_block hbody hfresh]
    exact .lastBlock hbody

theorem opens_slash {t : Text} (hline : t.head? ≠ some '/') (hblock : t.head? ≠ some '*') :
    Opens ('/' :: t) (keptFrom .slash t) := by
  rw [keptFrom_slash hline hblock]
  exact .slash hline hblock

/-- The first pass keeps what the start of the text says. -/
theorem opens (t : Text) : Opens t (keptFrom .code t) := by
  cases t with
  | nil => exact .nil
  | cons c t =>
    by_cases hslash : c = '/'
    · subst hslash
      by_cases hline : t.head? = some '/'
      · obtain ⟨t, rfl⟩ := List.head?_eq_some_iff.1 hline
        exact opens_line t
      · by_cases hblock : t.head? = some '*'
        · obtain ⟨t, rfl⟩ := List.head?_eq_some_iff.1 hblock
          exact opens_block t
        · exact opens_slash hline hblock
    · rw [keptFrom_code_cons hslash]
      exact .char hslash

/-! ## What is put out -/

/-- What the second pass puts out of a text from a spot on. -/
def putFrom : Spot → Text → Text
  | spot, [] => (spot.held true).reverse
  | spot, c :: t => (spot.step c).2.reverse ++ putFrom (spot.step c).1 t

theorem putFrom_cons (spot : Spot) (c : Char) (t : Text) :
    putFrom spot (c :: t) = (spot.step c).2.reverse ++ putFrom (spot.step c).1 t := rfl

theorem stripTrailingCommas_eq_putFrom (t : Text) : stripTrailingCommas t = putFrom .code t := by
  have hscan (spot : Spot) (out t : Text) :
      finish (scanCommas spot out t) = out.reverse ++ putFrom spot t := by
    induction t generalizing spot out with
    | nil => simp [scanCommas_nil, finish, putFrom]
    | cons c t ih => simp [scanCommas_cons, ih, putFrom_cons]
  exact hscan .code [] t

theorem putFrom_code_cons {c : Char} (h : c ≠ ',') (t : Text) :
    putFrom .code (c :: t) = c :: putFrom (if c = '"' then .string else .code) t := by
  rw [putFrom_cons, step_code h]
  rfl

theorem ne_of_isBlank {c : Char} (h : Text.isBlank c = true) :
    c ≠ ',' ∧ c ≠ '"' ∧ ¬ (c = '\x7d' ∨ c = ']') := by
  refine ⟨?_, ?_, ?_⟩
  · rintro rfl
    exact absurd h (by decide)
  · rintro rfl
    exact absurd h (by decide)
  · rintro (rfl | rfl) <;> exact absurd h (by decide)

/-- What a character does behind a comma. Another comma lets it go and takes its place, a closing
bracket leaves it out, a blank character is held back with it, and any other character lets it go. -/
theorem step_comma_cases (blanks : Text) (c : Char) :
    (c = ',' ∧ (Spot.comma blanks).step c = (.comma [], blanks ++ [','])) ∨
    ((c = '\x7d' ∨ c = ']') ∧ (Spot.comma blanks).step c = (.code, c :: blanks)) ∨
    (Text.isBlank c = true ∧ (Spot.comma blanks).step c = (.comma (c :: blanks), [])) ∨
    ((c ≠ ',' ∧ ¬ (c = '\x7d' ∨ c = ']') ∧ Text.isBlank c = false) ∧
      (Spot.comma blanks).step c =
        (if c = '"' then .string else .code, c :: (blanks ++ [',']))) := by
  have hcode : (Spot.comma blanks).step c = stepCode (.comma blanks) c := by simp only [Spot.step]
  rw [hcode]
  unfold stepCode
  by_cases hcomma : c = ','
  · exact .inl ⟨hcomma, if_pos hcomma⟩
  rw [if_neg hcomma]
  by_cases hclosing : c = '\x7d' ∨ c = ']'
  · exact .inr (.inl ⟨hclosing, if_pos hclosing⟩)
  rw [if_neg hclosing]
  cases hblank : Text.isBlank c with
  | true => exact .inr (.inr (.inl ⟨rfl, rfl⟩))
  | false => exact .inr (.inr (.inr ⟨⟨hcomma, hclosing, rfl⟩, rfl⟩))

/-- A closing bracket comes next, apart from blank characters. -/
def Closes (t : Text) : Prop :=
  ∃ blanks b rest, t = blanks ++ b :: rest ∧ (∀ c ∈ blanks, Text.isBlank c = true) ∧
    (b = '\x7d' ∨ b = ']')

theorem not_closes_nil : ¬ Closes [] := by
  rintro ⟨blanks, b, rest, heq, -⟩
  simp at heq

theorem closes_cons_iff {c : Char} {t : Text} :
    Closes (c :: t) ↔ (c = '\x7d' ∨ c = ']') ∨ Text.isBlank c = true ∧ Closes t := by
  constructor
  · rintro ⟨blanks, b, rest, heq, hblanks, hb⟩
    cases blanks with
    | nil =>
      cases heq
      exact .inl hb
    | cons d blanks =>
      cases heq
      obtain ⟨hc, hblanks⟩ := List.forall_mem_cons.1 hblanks
      exact .inr ⟨hc, blanks, b, rest, rfl, hblanks, hb⟩
  · rintro (hc | ⟨hc, blanks, b, rest, rfl, hblanks, hb⟩)
    · exact ⟨[], c, t, rfl, by simp, hc⟩
    · exact ⟨c :: blanks, b, rest, rfl, List.forall_mem_cons.2 ⟨hc, hblanks⟩, hb⟩

instance decidableCloses : DecidablePred Closes
  | [] => .isFalse not_closes_nil
  | _ :: t =>
    have := decidableCloses t
    decidable_of_iff' _ closes_cons_iff

/-- Blank characters are put out. -/
theorem putFrom_blanks {blanks : Text} (h : ∀ c ∈ blanks, Text.isBlank c = true) (t : Text) :
    putFrom .code (blanks ++ t) = blanks ++ putFrom .code t := by
  induction blanks with
  | nil => rfl
  | cons c blanks ih =>
    obtain ⟨hc, hblanks⟩ := List.forall_mem_cons.1 h
    obtain ⟨hcomma, hquote, -⟩ := ne_of_isBlank hc
    rw [List.cons_append, putFrom_code_cons hcomma, if_neg hquote, ih hblanks, List.cons_append]

/-- What comes next decides on the comma before it; all else is put out. -/
theorem putFrom_comma (held t : Text) :
    putFrom (.comma held) t =
      (if Closes t then [] else [',']) ++ (held.reverse ++ putFrom .code t) := by
  induction t generalizing held with
  | nil =>
    rw [if_neg not_closes_nil]
    simp [putFrom, Spot.held]
  | cons c t ih =>
    rw [putFrom_cons]
    rcases step_comma_cases held c with
      ⟨rfl, hstep⟩ | ⟨hclosing, hstep⟩ | ⟨hblank, hstep⟩ | ⟨⟨hcomma, hclosing, hblank⟩, hstep⟩
    · have hopen : ¬ Closes (',' :: t) := by
        rw [closes_cons_iff]
        rintro (h | ⟨h, -⟩)
        · exact absurd h (by decide)
        · exact absurd h (by decide)
      have hcode : putFrom .code (',' :: t) = putFrom (.comma []) t := rfl
      rw [hstep, if_neg hopen, hcode]
      simp
    · have hne : c ≠ ',' ∧ c ≠ '"' := by rcases hclosing with rfl | rfl <;> decide
      rw [hstep, if_pos (closes_cons_iff.2 (.inl hclosing)), putFrom_code_cons hne.1, if_neg hne.2]
      simp
    · obtain ⟨hcomma, hquote, hclosing⟩ := ne_of_isBlank hblank
      have hnext : Closes (c :: t) ↔ Closes t := by simp [closes_cons_iff, hclosing, hblank]
      rw [hstep, ih, putFrom_code_cons hcomma, if_neg hquote]
      simp [hnext]
    · have hopen : ¬ Closes (c :: t) := by simp [closes_cons_iff, hclosing, hblank]
      rw [hstep, if_neg hopen, putFrom_code_cons hcomma]
      simp

/-- A comma is left out if a closing bracket comes next, and put out otherwise. -/
theorem putFrom_code_comma (t : Text) :
    putFrom .code (',' :: t) = (if Closes t then [] else [',']) ++ putFrom .code t :=
  putFrom_comma [] t

/-- A comma is left out if only blank characters part it from a closing bracket, and put out
otherwise. -/
theorem passes_comma (t : Text) :
    (∃ blanks b rest, t = blanks ++ b :: rest ∧ (∀ c ∈ blanks, Text.isBlank c = true) ∧
        (b = '\x7d' ∨ b = ']') ∧
        putFrom .code (',' :: t) = blanks ++ b :: putFrom .code rest) ∨
      putFrom .code (',' :: t) = ',' :: putFrom .code t := by
  rw [putFrom_code_comma]
  by_cases h : Closes t
  · rw [if_pos h]
    obtain ⟨blanks, b, rest, rfl, hblanks, hb⟩ := h
    refine .inl ⟨blanks, b, rest, rfl, hblanks, hb, ?_⟩
    have hne : b ≠ ',' ∧ b ≠ '"' := by rcases hb with rfl | rfl <;> decide
    rw [List.nil_append, putFrom_blanks hblanks, putFrom_code_cons hne.1, if_neg hne.2]
  · rw [if_neg h]
    exact .inr rfl

end Jsonc

end SourceClosure
