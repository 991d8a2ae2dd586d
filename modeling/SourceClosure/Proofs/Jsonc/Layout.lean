import SourceClosure.Jsonc
import SourceClosure.Proofs.Json.Token

/-!
# What relaxed JSON leaves behind

Relaxed JSON has comments between its tokens, and a comma may stand before a closing bracket. The
first pass turns what stands between tokens into spacing and keeps all tokens
(`stripComments_render`). The second pass drops exactly the commas that stand before a closing
bracket (`stripTrailingCommas_render`). Both leave strict JSON as it is, character by character.
-/

namespace SourceClosure

namespace Jsonc

open Json

/-! ## Filler -/

/-- Spacing and comments, each of which is over at the end. -/
inductive IsFiller : Text → Prop where
  | nil : IsFiller []
  | space {c : Char} {t : Text} : isSpace c = true → IsFiller t → IsFiller (c :: t)
  | block {body t : Text} : ¬ "*/".toList <:+: body → IsFiller t →
      IsFiller ('/' :: '*' :: (body ++ '*' :: '/' :: t))
  | line {body t : Text} : '\n' ∉ body → IsFiller t →
      IsFiller ('/' :: '/' :: (body ++ '\n' :: t))

/-- Filler at the end of a text, where the last comment may go on to the end of the line that has
no end. -/
inductive IsLastFiller : Text → Prop where
  | filler {t : Text} : IsFiller t → IsLastFiller t
  | line {t body : Text} : IsFiller t → '\n' ∉ body → IsLastFiller (t ++ '/' :: '/' :: body)

/-! ## Scanning for comments -/

theorem scanComments_nil (place : Place) (kept : Text) :
    scanComments place kept [] = (place, kept) :=
  rfl

theorem scanComments_cons (place : Place) (kept : Text) (c : Char) (t : Text) :
    scanComments place kept (c :: t) =
      scanComments (place.step c).1 ((place.step c).2.reverse ++ kept) t :=
  rfl

theorem scanComments_append (place : Place) (kept s t : Text) :
    scanComments place kept (s ++ t) =
      scanComments (scanComments place kept s).1 (scanComments place kept s).2 t := by
  rw [scanComments, List.foldl_append]
  rfl

/-- Text outside of comments that ends there is kept. -/
def Kept (t : Text) : Prop :=
  ∀ kept, scanComments .code kept t = (.code, t.reverse ++ kept)

theorem kept_nil : Kept [] :=
  fun _ => rfl

theorem Kept.append {s t : Text} (hs : Kept s) (ht : Kept t) : Kept (s ++ t) := by
  intro kept
  rw [scanComments_append, hs, ht, List.reverse_append, List.append_assoc]

/-- A character that starts neither a string nor a comment is kept. -/
theorem kept_singleton {c : Char} (hquote : c ≠ '"') (hslash : c ≠ '/') : Kept [c] := by
  intro kept
  simp [scanComments_cons, scanComments_nil, Place.step, enterCode, hquote, hslash]

theorem kept_of_forall {t : Text} (h : ∀ c ∈ t, c ≠ '"' ∧ c ≠ '/') : Kept t := by
  induction t with
  | nil => exact kept_nil
  | cons c t ih =>
    have hc := h c List.mem_cons_self
    exact (kept_singleton hc.1 hc.2).append (ih (fun d hd => h d (List.mem_cons_of_mem c hd)))

theorem scanComments_string {body : Text} (h : IsQuoted body) (kept : Text) :
    scanComments .string kept body = (.string, body.reverse ++ kept) := by
  induction h generalizing kept with
  | nil => rfl
  | plain hquote hback _ _ ih =>
    simp [scanComments_cons, Place.step, hquote, hback, ih]
  | short _ _ ih => simp [scanComments_cons, Place.step, ih]
  | @unit a b c d t ha hb hc hd _ ih =>
    have hne {x : Char} (hx : isHexDigit x = true) : x ≠ '\\' ∧ x ≠ '"' := by
      constructor <;> rintro rfl <;> cases hx
    simp [scanComments_cons, Place.step, hne ha, hne hb, hne hc, hne hd, ih]

/-- Every token is kept. -/
theorem kept_text (a : Token) : Kept a.text := by
  cases a with
  | opening b => cases b <;> exact kept_singleton (by decide) (by decide)
  | closing b => cases b <;> exact kept_singleton (by decide) (by decide)
  | comma => exact kept_singleton (by decide) (by decide)
  | colon => exact kept_singleton (by decide) (by decide)
  | null => exact kept_of_forall (List.all_iff_forall_prop.1 (by decide))
  | bool b => cases b <;> exact kept_of_forall (List.all_iff_forall_prop.1 (by decide))
  | string body h =>
    intro kept
    rw [Token.text, scanComments_cons]
    simp [Place.step, enterCode, scanComments_append, scanComments_string h, scanComments_cons,
      scanComments_nil]
  | number digits h =>
    refine kept_of_forall (fun c hc => ?_)
    rcases h.mem hc with hdigit | hmark
    · constructor <;> rintro rfl <;> cases hdigit
    · have hall : ∀ c ∈ numberMarks, c ≠ '"' ∧ c ≠ '/' :=
        List.all_iff_forall_prop.1 (by decide)
      exact hall c hmark

/-- Spacing is kept. -/
theorem kept_of_isSpacing {g : Text} (h : IsSpacing g) : Kept g := by
  refine kept_of_forall (fun c hc => ?_)
  have hspace := h c hc
  constructor <;> rintro rfl <;> cases hspace

theorem stripComments_of_kept {t : Text} (h : Kept t) : stripComments t = t := by
  rw [stripComments, h []]
  simp [Place.final]

/-! ## Comments -/

/-- What scanning filler from the code outside of comments comes to. -/
def Cleans (g s : Text) : Prop :=
  ∀ kept, scanComments .code kept g = (.code, s.reverse ++ kept)

theorem scanComments_line {body : Text} (h : '\n' ∉ body) (kept : Text) :
    scanComments .line kept body = (.line, kept) := by
  induction body with
  | nil => rfl
  | cons c body ih =>
    have hc : c ≠ '\n' := fun heq => h (heq ▸ List.mem_cons_self)
    have hbody : '\n' ∉ body := fun hmem => h (List.mem_cons_of_mem c hmem)
    simpa [scanComments_cons, Place.step, hc] using ih hbody

/-- A character of the body of a block comment leaves a line break behind if it is one. The scan stays
in the comment, and whether an asterisk was just read fits what is left of the body. -/
theorem step_block {c : Char} {body : Text} (h : ¬ "*/".toList <:+: c :: body) {asterisk : Bool}
    (hstart : asterisk = true → (c :: body).head? ≠ some '/') :
    (Place.block asterisk).step c = (.block (c == '*'), if c = '\n' then [c] else []) ∧
      ¬ "*/".toList <:+: body ∧ ((c == '*') = true → body.head? ≠ some '/') := by
  have hclose : ¬ (asterisk = true ∧ c = '/') :=
    fun hboth => hstart hboth.1 (by rw [hboth.2]; rfl)
  refine ⟨?_, fun hsub => h (hsub.trans (List.suffix_cons c body).isInfix), fun hc hhead => ?_⟩
  · simp only [Place.step, Bool.and_eq_true, beq_iff_eq, if_neg hclose]
  · obtain ⟨rest, rfl⟩ := List.head?_eq_some_iff.1 hhead
    rw [beq_iff_eq] at hc
    subst hc
    exact h (List.prefix_append "*/".toList rest).isInfix

/-- The scan stays in the comment throughout its body, and keeps the line breaks. -/
theorem scanComments_body {body : Text} (h : ¬ "*/".toList <:+: body) {asterisk : Bool}
    (hstart : asterisk = true → body.head? ≠ some '/') (kept : Text) :
    ∃ last, scanComments (.block asterisk) kept body =
      (.block last, (body.filter (· = '\n')).reverse ++ kept) := by
  induction body generalizing asterisk kept with
  | nil => exact ⟨asterisk, rfl⟩
  | cons c body ih =>
    obtain ⟨hstep, hbody, hnext⟩ := step_block h hstart
    obtain ⟨last, hlast⟩ := ih hbody hnext ((if c = '\n' then [c] else []).reverse ++ kept)
    refine ⟨last, ?_⟩
    rw [scanComments_cons, hstep, hlast]
    by_cases hline : c = '\n' <;> simp [hline]

/-- The body of a comment leaves its line breaks behind. -/
theorem scanComments_block {body : Text} (h : ¬ "*/".toList <:+: body) {asterisk : Bool}
    (hstart : asterisk = true → body.head? ≠ some '/') (kept : Text) :
    scanComments (.block asterisk) kept (body ++ ['*', '/']) =
      (.code, (body.filter (· = '\n')).reverse ++ kept) := by
  obtain ⟨last, hlast⟩ := scanComments_body h hstart kept
  rw [scanComments_append, hlast]
  cases last <;> rfl

theorem IsFiller.exists_cleans {g : Text} (h : IsFiller g) : ∃ s, IsSpacing s ∧ Cleans g s := by
  induction h with
  | nil => exact ⟨[], by simp [IsSpacing], fun _ => rfl⟩
  | @space c t hc _ ih =>
    obtain ⟨s, hs, hclean⟩ := ih
    have hkept : Kept [c] := kept_of_isSpacing (by simpa [IsSpacing] using hc)
    refine ⟨c :: s, List.forall_mem_cons.2 ⟨hc, hs⟩, fun kept => ?_⟩
    rw [← List.singleton_append, scanComments_append, hkept, hclean]
    simp
  | @block body t hbody _ ih =>
    obtain ⟨s, hs, hclean⟩ := ih
    refine ⟨body.filter (· = '\n') ++ s, ?_, fun kept => ?_⟩
    · intro c hc
      rcases List.mem_append.1 hc with hc | hc
      · have hline : c = '\n' := by simpa using (List.mem_filter.1 hc).2
        rw [hline]
        rfl
      · exact hs c hc
    · have hblock : scanComments .code kept ('/' :: '*' :: (body ++ '*' :: '/' :: t)) =
          scanComments (.block false) kept ((body ++ ['*', '/']) ++ t) := by
        rw [List.append_assoc]
        rfl
      have hstart : false = true → body.head? ≠ some '/' := by simp
      rw [hblock, scanComments_append, scanComments_block hbody hstart, hclean,
        List.reverse_append, List.append_assoc]
  | @line body t hbody _ ih =>
    obtain ⟨s, hs, hclean⟩ := ih
    refine ⟨'\n' :: s, List.forall_mem_cons.2 ⟨rfl, hs⟩, fun kept => ?_⟩
    have hline : scanComments .code kept ('/' :: '/' :: (body ++ '\n' :: t)) =
        scanComments .line kept (body ++ '\n' :: t) := rfl
    rw [hline, scanComments_append, scanComments_line hbody, scanComments_cons]
    simp [Place.step, hclean _]

theorem Cleans.stripComments {g s : Text} (h : Cleans g s) : stripComments g = s := by
  rw [Jsonc.stripComments, h []]
  simp [Place.final]

/-- Filler leaves spacing behind. -/
theorem IsFiller.cleans {g : Text} (h : IsFiller g) :
    Cleans g (stripComments g) ∧ IsSpacing (stripComments g) := by
  obtain ⟨s, hs, hclean⟩ := h.exists_cleans
  rw [hclean.stripComments]
  exact ⟨hclean, hs⟩

/-- Filler at the end leaves spacing behind, too. -/
theorem IsLastFiller.cleans {w : Text} (h : IsLastFiller w) :
    (∀ kept, let place := (scanComments .code kept w).1
      (scanComments .code kept w).2 = (stripComments w).reverse ++ kept ∧ place.final = []) ∧
    IsSpacing (stripComments w) := by
  cases h with
  | filler h =>
    obtain ⟨hclean, hspacing⟩ := h.cleans
    exact ⟨fun kept => by simp [hclean kept, Place.final], hspacing⟩
  | @line t body h hbody =>
    obtain ⟨hclean, hspacing⟩ := h.cleans
    have hscan (kept : Text) : scanComments .code kept (t ++ '/' :: '/' :: body) =
        (.line, (stripComments t).reverse ++ kept) := by
      rw [scanComments_append, hclean]
      exact scanComments_line hbody _
    have hstrip : stripComments (t ++ '/' :: '/' :: body) = stripComments t := by
      rw [stripComments, hscan]
      simp [Place.final]
    rw [hstrip]
    exact ⟨fun kept => by simp [hscan, Place.final], hspacing⟩

/-- The piece without the comments before its token. -/
def cleanPiece (p : Piece) : Piece :=
  ⟨stripComments p.gap, p.token⟩

/-- The first pass keeps the tokens and cleans what stands between them. -/
theorem stripComments_render {ps : List Piece} {w : Text} (hps : ∀ p ∈ ps, IsFiller p.gap)
    (hw : IsLastFiller w) :
    stripComments (render ps w) = render (ps.map cleanPiece) (stripComments w) := by
  have hscan (kept : Text) :
      (scanComments .code kept (render ps w)).2 =
        (render (ps.map cleanPiece) (stripComments w)).reverse ++ kept ∧
      (scanComments .code kept (render ps w)).1.final = [] := by
    induction ps generalizing kept with
    | nil => exact hw.cleans.1 kept
    | cons p ps ih =>
      have hgap := (hps p List.mem_cons_self).cleans.1
      obtain ⟨hkept, hfinal⟩ := ih (fun q hq => hps q (List.mem_cons_of_mem p hq))
        (p.token.text.reverse ++ ((stripComments p.gap).reverse ++ kept))
      rw [render, scanComments_append, hgap, scanComments_append, kept_text]
      refine ⟨?_, hfinal⟩
      rw [hkept, List.map_cons, render, cleanPiece]
      simp only [List.reverse_append, List.append_assoc]
  obtain ⟨hkept, hfinal⟩ := hscan []
  rw [stripComments]
  dsimp only
  rw [hfinal, hkept]
  simp

/-! ## Scanning for commas -/

theorem scanCommas_nil (spot : Spot) (out : Text) : scanCommas spot out [] = (spot, out) :=
  rfl

theorem scanCommas_cons (spot : Spot) (out : Text) (c : Char) (t : Text) :
    scanCommas spot out (c :: t) = scanCommas (spot.step c).1 ((spot.step c).2 ++ out) t :=
  rfl

theorem scanCommas_append (spot : Spot) (out s t : Text) :
    scanCommas spot out (s ++ t) =
      scanCommas (scanCommas spot out s).1 (scanCommas spot out s).2 t := by
  rw [scanCommas, List.foldl_append]
  rfl

theorem step_code {c : Char} (h : c ≠ ',') :
    Spot.code.step c = (if c = '"' then .string else .code, [c]) := by
  change stepCode .code c = _
  unfold stepCode
  rw [if_neg h]
  split
  · next hclosing => rcases hclosing with rfl | rfl <;> rfl
  split
  · next hblank =>
    have hquote : c ≠ '"' := by
      rintro rfl
      exact Bool.false_ne_true hblank
    rw [if_neg hquote]
  · rfl

/-- A blank character behind a comma is held back with it. -/
theorem step_comma_of_isSpace {c : Char} (h : isSpace c = true) (blanks : Text) :
    (Spot.comma blanks).step c = (.comma (c :: blanks), []) := by
  have hplain : c ≠ ',' ∧ ¬ (c = '\x7d' ∨ c = ']') ∧ Text.isBlank c = true := by
    simp only [isSpace, Bool.or_eq_true, beq_iff_eq] at h
    rcases h with ((rfl | rfl) | rfl) | rfl <;> decide
  change stepCode (.comma blanks) c = _
  unfold stepCode
  rw [if_neg hplain.1, if_neg hplain.2.1, if_pos hplain.2.2]

/-- A character that neither closes a bracket nor is blank lets the comma go, with what was held
back. -/
theorem step_comma {c : Char} (hclosing : ¬ (c = '\x7d' ∨ c = ']'))
    (hblank : Text.isBlank c = false) (blanks : Text) :
    (Spot.comma blanks).step c =
      ((Spot.code.step c).1, (Spot.code.step c).2 ++ (blanks ++ [','])) := by
  change stepCode (.comma blanks) c =
    ((stepCode .code c).1, (stepCode .code c).2 ++ (blanks ++ [',']))
  unfold stepCode
  rw [if_neg hclosing, hblank]
  split <;> rfl

/-- Text outside of strings that ends there and behind no comma is put out. -/
def PutOut (t : Text) : Prop :=
  ∀ out, scanCommas .code out t = (.code, t.reverse ++ out)

theorem PutOut.append {s t : Text} (hs : PutOut s) (ht : PutOut t) : PutOut (s ++ t) := by
  intro out
  rw [scanCommas_append, hs, ht, List.reverse_append, List.append_assoc]

/-- A character that is no comma and starts no string is put out. -/
theorem putOut_singleton {c : Char} (hcomma : c ≠ ',') (hquote : c ≠ '"') : PutOut [c] := by
  intro out
  rw [scanCommas_cons, step_code hcomma, if_neg hquote]
  rfl

theorem putOut_of_forall {t : Text} (h : ∀ c ∈ t, c ≠ ',' ∧ c ≠ '"') : PutOut t := by
  induction t with
  | nil => exact fun _ => rfl
  | cons c t ih =>
    have hc := h c List.mem_cons_self
    exact (putOut_singleton hc.1 hc.2).append (ih (fun d hd => h d (List.mem_cons_of_mem c hd)))

theorem putOut_of_isSpacing {g : Text} (h : IsSpacing g) : PutOut g := by
  refine putOut_of_forall (fun c hc => ?_)
  have hspace := h c hc
  constructor <;> rintro rfl <;> cases hspace

theorem scanCommas_string {body : Text} (h : IsQuoted body) (out : Text) :
    scanCommas .string out body = (.string, body.reverse ++ out) := by
  induction h generalizing out with
  | nil => rfl
  | plain hquote hback _ _ ih =>
    simp [scanCommas_cons, Spot.step, hquote, hback, ih]
  | short _ _ ih => simp [scanCommas_cons, Spot.step, ih]
  | @unit a b c d t ha hb hc hd _ ih =>
    have hne {x : Char} (hx : isHexDigit x = true) : x ≠ '\\' ∧ x ≠ '"' := by
      constructor <;> rintro rfl <;> cases hx
    simp [scanCommas_cons, Spot.step, hne ha, hne hb, hne hc, hne hd, ih]

/-- Every token but a comma is put out. -/
theorem putOut_text {a : Token} (ha : a ≠ .comma) : PutOut a.text := by
  cases a with
  | opening b => cases b <;> exact putOut_singleton (by decide) (by decide)
  | closing b => cases b <;> exact putOut_singleton (by decide) (by decide)
  | comma => exact absurd rfl ha
  | colon => exact putOut_singleton (by decide) (by decide)
  | null => exact putOut_of_forall (List.all_iff_forall_prop.1 (by decide))
  | bool b => cases b <;> exact putOut_of_forall (List.all_iff_forall_prop.1 (by decide))
  | string body h =>
    intro out
    rw [Token.text, scanCommas_cons, step_code (by decide), if_pos rfl, scanCommas_append,
      scanCommas_string h]
    simp [scanCommas_cons, scanCommas_nil, Spot.step]
  | number digits h =>
    refine putOut_of_forall (fun c hc => ?_)
    rcases h.mem hc with hdigit | hmark
    · constructor <;> rintro rfl <;> cases hdigit
    · have hall : ∀ c ∈ numberMarks, c ≠ ',' ∧ c ≠ '"' :=
        List.all_iff_forall_prop.1 (by decide)
      exact hall c hmark

/-! ## Trailing commas -/

/-- Spacing behind a comma is held back with it. -/
theorem scanCommas_comma {g : Text} (h : IsSpacing g) (blanks out : Text) :
    scanCommas (.comma blanks) out g = (.comma (g.reverse ++ blanks), out) := by
  induction g generalizing blanks with
  | nil => rfl
  | cons c g ih =>
    rw [scanCommas_cons, step_comma_of_isSpace (h c List.mem_cons_self)]
    simpa using ih (fun d hd => h d (List.mem_cons_of_mem c hd)) (c :: blanks)

theorem isBlank_of_isDigit {c : Char} (h : c.isDigit = true) : Text.isBlank c = false := by
  have hrange : 48 ≤ c.toNat ∧ c.toNat ≤ 57 := by
    simpa [Char.isDigit, UInt32.le_iff_toNat_le] using h
  simp only [Text.isBlank, Bool.or_eq_false_iff, Bool.and_eq_false_iff, decide_eq_false_iff_not,
    beq_eq_false_iff_ne]
  omega

theorem isBlank_mark (a : Token) : Text.isBlank a.mark = false := by
  cases a with
  | opening b => cases b <;> decide
  | closing b => cases b <;> decide
  | comma => decide
  | colon => decide
  | null => decide
  | bool b => cases b <;> decide
  | string body h => exact (by decide : Text.isBlank '"' = false)
  | number digits h =>
    rcases Token.mark_number h with hminus | hdigit
    · rw [hminus]
      decide
    · exact isBlank_of_isDigit hdigit

/-- A token that is no closing bracket lets the comma before it go, with what was held back. -/
theorem scanCommas_text {a : Token} (ha : a.isClosing = false) (blanks out : Text) :
    scanCommas (.comma blanks) out a.text = scanCommas .code (blanks ++ ',' :: out) a.text := by
  have hclosing : ¬ (a.mark = '\x7d' ∨ a.mark = ']') := by
    rintro (heq | heq)
    · rw [Token.mark_eq_closing_iff (b := .object) |>.1 heq] at ha
      cases ha
    · rw [Token.mark_eq_closing_iff (b := .list) |>.1 heq] at ha
      cases ha
  rw [a.text_eq_cons, scanCommas_cons, scanCommas_cons, step_comma hclosing (isBlank_mark a)]
  simp

theorem scanCommas_closing (b : Bracket) (blanks out : Text) :
    scanCommas (.comma blanks) out (Token.closing b).text =
      (.code, (Token.closing b).text.reverse ++ (blanks ++ out)) := by
  cases b <;> rfl

/-- What is put out when the text ends. -/
def finish (reached : Spot × Text) : Text :=
  (reached.1.held true ++ reached.2).reverse

/-- A comma that no closing bracket follows is as good as put out. -/
theorem finish_comma {ps : List Piece} {w : Text} (hps : ∀ p ∈ ps, IsSpacing p.gap)
    (hw : IsSpacing w) (hhead : ∀ p ∈ ps.head?, p.token.isClosing = false) (out : Text) :
    finish (scanCommas (.comma []) out (render ps w)) =
      finish (scanCommas .code (',' :: out) (render ps w)) := by
  cases ps with
  | nil =>
    rw [render, scanCommas_comma hw, putOut_of_isSpacing hw]
    simp [finish, Spot.held]
  | cons p ps =>
    have hgap := hps p List.mem_cons_self
    rw [render, scanCommas_append, scanCommas_comma hgap, scanCommas_append (.code),
      putOut_of_isSpacing hgap, scanCommas_append, scanCommas_text (hhead p rfl),
      ← scanCommas_append]
    simp

/-- The pieces without the commas before closing brackets. -/
def dropTrailing : List Piece → List Piece
  | [] => []
  | ⟨g, .comma⟩ :: ⟨g', .closing b⟩ :: ps => ⟨g ++ g', .closing b⟩ :: dropTrailing ps
  | p :: ps => p :: dropTrailing ps

theorem finish_render {ps : List Piece} {w : Text} (hps : ∀ p ∈ ps, IsSpacing p.gap)
    (hw : IsSpacing w) (out : Text) :
    finish (scanCommas .code out (render ps w)) = out.reverse ++ render (dropTrailing ps) w := by
  fun_induction dropTrailing ps generalizing out with
  | case1 =>
    rw [render, putOut_of_isSpacing hw]
    simp [finish, Spot.held]
  | case2 g g' b ps ih =>
    obtain ⟨hg, hps⟩ := List.forall_mem_cons.1 hps
    obtain ⟨hg', hps⟩ := List.forall_mem_cons.1 hps
    have hcomma (out t : Text) : scanCommas .code out (Token.comma.text ++ t) =
        scanCommas (.comma []) out t := rfl
    rw [render, scanCommas_append, putOut_of_isSpacing hg, hcomma, render, scanCommas_append,
      scanCommas_comma hg', scanCommas_append, scanCommas_closing, ih hps, render]
    simp
  | case3 p ps hother ih =>
    obtain ⟨hgap, hps⟩ := List.forall_mem_cons.1 hps
    rw [render, scanCommas_append, putOut_of_isSpacing hgap]
    by_cases hp : p.token = .comma
    · have hhead : ∀ q ∈ ps.head?, q.token.isClosing = false := by
        rintro ⟨g', a⟩ hq
        obtain ⟨rest, rfl⟩ := List.head?_eq_some_iff.1 hq
        cases a with
        | closing b => exact (hother p.gap g' b rest (hp ▸ rfl) rfl).elim
        | _ => rfl
      have hcomma (t : Text) : scanCommas .code (p.gap.reverse ++ out) (p.token.text ++ t) =
          scanCommas (.comma []) (p.gap.reverse ++ out) t := by
        rw [hp]
        rfl
      rw [hcomma, finish_comma hps hw hhead, ih hps, render, hp]
      simp [Token.text]
    · rw [scanCommas_append, putOut_text hp, ih hps, render]
      simp

/-- The second pass leaves out exactly the commas before closing brackets. -/
theorem stripTrailingCommas_render {ps : List Piece} {w : Text}
    (hps : ∀ p ∈ ps, IsSpacing p.gap) (hw : IsSpacing w) :
    stripTrailingCommas (render ps w) = render (dropTrailing ps) w :=
  finish_render hps hw []

theorem isSpacing_dropTrailing {ps : List Piece} (hps : ∀ p ∈ ps, IsSpacing p.gap) :
    ∀ p ∈ dropTrailing ps, IsSpacing p.gap := by
  fun_induction dropTrailing ps with
  | case1 => exact hps
  | case2 g g' b ps ih =>
    obtain ⟨hg, hps⟩ := List.forall_mem_cons.1 hps
    obtain ⟨hg', hps⟩ := List.forall_mem_cons.1 hps
    refine List.forall_mem_cons.2 ⟨fun c hc => ?_, ih hps⟩
    exact (List.mem_append.1 hc).elim (hg c) (hg' c)
  | case3 p ps hother ih =>
    obtain ⟨hgap, hps⟩ := List.forall_mem_cons.1 hps
    exact List.forall_mem_cons.2 ⟨hgap, ih hps⟩

/-! ## Strict tokens -/

/-- The second row is the first without some of its commas before closing brackets. -/
inductive Sheds : List Token → List Token → Prop where
  | nil : Sheds [] []
  | keep (a : Token) {us ts : List Token} : Sheds us ts → Sheds (a :: us) (a :: ts)
  | shed (b : Bracket) {us ts : List Token} : Sheds us ts →
      Sheds (.comma :: .closing b :: us) (.closing b :: ts)

theorem Sheds.refl (ts : List Token) : Sheds ts ts := by
  induction ts with
  | nil => exact .nil
  | cons a ts ih => exact .keep a ih

theorem Sheds.append {us ts us' ts' : List Token} (h : Sheds us ts) (h' : Sheds us' ts') :
    Sheds (us ++ us') (ts ++ ts') := by
  induction h with
  | nil => exact h'
  | keep a _ ih => exact .keep a ih
  | shed b _ ih => exact .shed b ih

/-- The additional commas of a form are commas before closing brackets. -/
theorem sheds_tokens {k : Part} (f : Form k) : Sheds (f.tokens true) (f.tokens false) := by
  induction f with
  | null => exact .refl _
  | bool => exact .refl _
  | string => exact .refl _
  | number => exact .refl _
  | empty => exact .refl _
  | full b entries trailing ih =>
    refine .keep _ (ih.append ?_)
    cases trailing with
    | true => exact .shed b .nil
    | false => exact .refl _
  | item value ih => exact ih
  | member name h value ih => exact .keep _ (.keep _ ih)
  | last entry ih => exact ih
  | more entry entries ih ihs => exact ih.append (.keep _ ihs)

/-- If no comma before a closing bracket is left in the second row, then all of them are what the
second pass leaves out. -/
theorem Sheds.map_dropTrailing {ps : List Piece} {ts : List Token}
    (h : Sheds (ps.map Piece.token) ts) (hchain : ts.IsChain Token.Precedes) :
    (dropTrailing ps).map Piece.token = ts := by
  fun_induction dropTrailing ps generalizing ts with
  | case1 =>
    cases h
    rfl
  | case2 g g' b ps ih =>
    cases h with
    | keep _ h =>
      -- The comma would still be there, before the same bracket.
      cases h
      have hclosing := (List.isChain_cons_cons.1 hchain).1.comma rfl
      cases hclosing
    | shed _ h =>
      rw [List.map_cons, ih h (List.IsChain.tail hchain)]
  | case3 p ps hother ih =>
    obtain ⟨g, a⟩ := p
    rw [List.map_cons] at h
    generalize hus : ps.map Piece.token = us at h
    cases h with
    | keep _ h =>
      subst hus
      rw [List.map_cons, ih h (List.IsChain.tail hchain)]
    | shed b h =>
      obtain ⟨⟨g', a'⟩, rest, rfl, rfl, -⟩ := List.map_eq_cons_iff.1 hus
      exact (hother g g' b rest rfl rfl).elim

theorem dropTrailing_of_isChain {ps : List Piece}
    (h : (ps.map Piece.token).IsChain Token.Precedes) : dropTrailing ps = ps := by
  fun_induction dropTrailing ps with
  | case1 => rfl
  | case2 g g' b ps ih =>
    have hclosing := (List.isChain_cons_cons.1 h).1.comma rfl
    cases hclosing
  | case3 p ps hother ih => rw [ih (List.IsChain.tail h)]

/-! ## Both passes -/

theorem kept_render {ps : List Piece} {w : Text} (hps : ∀ p ∈ ps, IsSpacing p.gap)
    (hw : IsSpacing w) : Kept (render ps w) := by
  induction ps with
  | nil => exact kept_of_isSpacing hw
  | cons p ps ih =>
    obtain ⟨hgap, hps⟩ := List.forall_mem_cons.1 hps
    exact (kept_of_isSpacing hgap).append ((kept_text p.token).append (ih hps))

/-- Strict JSON is left as it is. -/
theorem toStrict_of_spaced {ts : List Token} (hchain : ts.IsChain Token.Precedes) {d : Text}
    (h : Spaced ts d) : toStrict d = d := by
  obtain ⟨ps, w, rfl, hps, hw, rfl⟩ := h
  rw [toStrict, stripComments_of_kept (kept_render hps hw), stripTrailingCommas_render hps hw,
    dropTrailing_of_isChain hchain]

/-- Relaxed JSON becomes strict JSON, with the same tokens but for the commas that strict JSON does
not have. -/
theorem spaced_toStrict {us ts : List Token} (h : Sheds us ts)
    (hchain : ts.IsChain Token.Precedes) {t : Text} (ht : Layout IsFiller IsLastFiller us t) :
    Spaced ts (toStrict t) := by
  obtain ⟨ps, w, rfl, hps, hw, rfl⟩ := ht
  have hclean : ∀ p ∈ ps.map cleanPiece, IsSpacing p.gap := by
    intro p hp
    obtain ⟨q, hq, rfl⟩ := List.mem_map.1 hp
    exact (hps q hq).cleans.2
  have htokens : (ps.map cleanPiece).map Piece.token = ps.map Piece.token := by
    rw [List.map_map]
    rfl
  have hlast := hw.cleans.2
  rw [toStrict, stripComments_render hps hw, stripTrailingCommas_render hclean hlast]
  refine ⟨_, _, ?_, isSpacing_dropTrailing hclean, hlast, rfl⟩
  exact (htokens.symm ▸ h : Sheds _ ts).map_dropTrailing hchain

end Jsonc

end SourceClosure
