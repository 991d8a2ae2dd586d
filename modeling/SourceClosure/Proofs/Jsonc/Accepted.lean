import SourceClosure.Proofs.Jsonc.Scan

/-!
# What relaxed texts become strict JSON

The two passes know nothing of the grammar, so more texts become strict JSON than relaxed JSON
allows, but not many more. A text whose strict form has certain tokens is made of the same tokens,
with spacing and comments between them and single commas before closing brackets
(`exists_scattered_of_spaced`). What is more than relaxed JSON is this: comments that leave no line
break behind may also stand inside of tokens other than strings, a comma may stand alone between
brackets, and the last comment may lack its end (`not_layout_of_spaced`).
-/

namespace SourceClosure

namespace Jsonc

open Json

/-! ## Comments in odd places -/

/-- Block comments on one line, one after the other. -/
inductive IsSilent : Text → Prop where
  | nil : IsSilent []
  | block {body t : Text} : ¬ "*/".toList <:+: body → '\n' ∉ body → IsSilent t →
      IsSilent ('/' :: '*' :: (body ++ '*' :: '/' :: t))

/-- The second text is the first with such comments between its characters. -/
inductive Broken : Text → Text → Prop where
  | last (c : Char) : Broken [c] [c]
  | more (c : Char) {word g t : Text} : IsSilent g → Broken word t →
      Broken (c :: word) (c :: (g ++ t))

/-- The text is the token, which may have comments inside if it is no string. -/
def Written : Token → Text → Prop
  | .string body _, t => t = '"' :: (body ++ ['"'])
  | a, t => Broken a.text t

/-- Filler at the end of a text, where the last comment may lack its end. -/
def IsOpenEnd (t : Text) : Prop :=
  ∃ g last, IsFiller g ∧ t = g ++ last ∧
    (last = [] ∨ (∃ body, '\n' ∉ body ∧ last = '/' :: '/' :: body) ∨
      ∃ body, ¬ "*/".toList <:+: body ∧ last = '/' :: '*' :: body)

/-- The text consists of these tokens with filler between them, and comments in odd places. -/
inductive Scattered : List Token → Text → Prop where
  | last {t : Text} : IsOpenEnd t → Scattered [] t
  | token {a : Token} {ts : List Token} {g w t : Text} : IsFiller g → Written a w →
      Scattered ts t → Scattered (a :: ts) (g ++ (w ++ t))

/-! ## Filler and what it leaves -/

/-- Filler, and the spacing that it leaves behind. -/
inductive Leaves : Text → Text → Prop where
  | nil : Leaves [] []
  | space {c : Char} {t s : Text} : isSpace c = true → Leaves t s → Leaves (c :: t) (c :: s)
  | block {body t s : Text} : ¬ "*/".toList <:+: body → Leaves t s →
      Leaves ('/' :: '*' :: (body ++ '*' :: '/' :: t)) (body.filter (· = '\n') ++ s)
  | line {body t s : Text} : '\n' ∉ body → Leaves t s →
      Leaves ('/' :: '/' :: (body ++ '\n' :: t)) ('\n' :: s)

theorem Leaves.isFiller {g s : Text} (h : Leaves g s) : IsFiller g := by
  induction h with
  | nil => exact .nil
  | space hc _ ih => exact .space hc ih
  | block hbody _ ih => exact .block hbody ih
  | line hbody _ ih => exact .line hbody ih

/-- Filler that leaves nothing behind has neither spacing nor line breaks. -/
theorem Leaves.isSilent {g : Text} (h : Leaves g []) : IsSilent g := by
  generalize hs : ([] : Text) = s at h
  induction h with
  | nil => exact .nil
  | space => cases hs
  | @block body t s hbody _ ih =>
    obtain ⟨hnone, rfl⟩ := List.append_eq_nil_iff.1 hs.symm
    refine .block hbody (fun hmem => ?_) (ih rfl)
    have hleft : '\n' ∈ body.filter (· = '\n') := List.mem_filter.2 ⟨hmem, by decide⟩
    rw [hnone] at hleft
    cases hleft
  | line => cases hs

/-! ## Undoing the first pass -/

theorem isSpace_newline : isSpace '\n' = true := by decide

theorem ne_quote_of_isSpace {c : Char} (h : isSpace c = true) : c ≠ '"' := by
  rintro rfl
  cases h

/-- What spacing before a character that is none starts with: that character, or spacing. -/
theorem eq_or_isSpace_of_cons_eq {c d : Char} {g k u : Text} (hg : IsSpacing g)
    (h : d :: k = g ++ c :: u) :
    (g = [] ∧ d = c ∧ k = u) ∨
      (isSpace d = true ∧ ∃ g', g = d :: g' ∧ IsSpacing g' ∧ k = g' ++ c :: u) := by
  cases g with
  | nil => exact .inl ⟨rfl, List.cons.inj h⟩
  | cons e g =>
    obtain ⟨rfl, htail⟩ := List.cons.inj h
    obtain ⟨hspace, hg⟩ := List.forall_mem_cons.1 hg
    exact .inr ⟨hspace, g, rfl, hg, htail⟩

/-- Line breaks before spacing and a character that is none belong to the spacing. -/
theorem exists_of_filter_append_eq {body k g u : Text} {c : Char} (hc : isSpace c = false)
    (h : body.filter (· = '\n') ++ k = g ++ c :: u) :
    ∃ g', g = body.filter (· = '\n') ++ g' ∧ k = g' ++ c :: u := by
  rcases List.append_eq_append_iff.1 h with ⟨g', rfl, rfl⟩ | ⟨l, hl, hcu⟩
  · exact ⟨g', rfl, rfl⟩
  · cases l with
    | nil => exact ⟨[], by simpa using hl.symm, by simpa using hcu.symm⟩
    | cons d l =>
      have hd : d = '\n' := by
        have hmem : d ∈ body.filter (· = '\n') := by simp [hl]
        simpa using (List.mem_filter.1 hmem).2
      obtain ⟨rfl, -⟩ := List.cons.inj hcu
      rw [hd, isSpace_newline] at hc
      cases hc

/-- What is kept before a character that starts no comment comes from filler. -/
theorem exists_leaves {t g u : Text} {c : Char} (hg : IsSpacing g) (hc : isSpace c = false)
    (hslash : c ≠ '/') (h : keptFrom .code t = g ++ c :: u) :
    ∃ g' t', t = g' ++ c :: t' ∧ Leaves g' g ∧
      keptFrom (if c = '"' then .string else .code) t' = u := by
  -- By length, since a comment takes up several characters in one step.
  induction hn : t.length using Nat.strong_induction_on generalizing t g with
  | _ n ih =>
    subst hn
    generalize hkept : keptFrom .code t = k at h
    have hopens := hkept ▸ opens t
    cases hopens with
    | nil => simp at h
    | @line body r hbody =>
      rcases eq_or_isSpace_of_cons_eq hg h with ⟨-, rfl, -⟩ | ⟨-, g₁, rfl, hg₁, hr⟩
      · rw [isSpace_newline] at hc
        cases hc
      · obtain ⟨g', t', rfl, hleaves, hu⟩ := ih r.length (by simp; omega) hg₁ hr rfl
        exact ⟨_, t', by simp, .line hbody hleaves, hu⟩
    | lastLine => simp at h
    | @block body r hbody =>
      obtain ⟨g₁, rfl, hr⟩ := exists_of_filter_append_eq hc h
      have hg₁ : IsSpacing g₁ := fun x hx => hg x (List.mem_append_right _ hx)
      obtain ⟨g', t', rfl, hleaves, hu⟩ := ih r.length (by simp; omega) hg₁ hr rfl
      exact ⟨_, t', by simp, .block hbody hleaves, hu⟩
    | @lastBlock body =>
      have hmem : c ∈ body.filter (· = '\n') := by simp [h]
      have hline : c = '\n' := by simpa using (List.mem_filter.1 hmem).2
      rw [hline, isSpace_newline] at hc
      cases hc
    | slash =>
      rcases eq_or_isSpace_of_cons_eq hg h with ⟨-, rfl, -⟩ | ⟨hspace, -⟩
      · exact absurd rfl hslash
      · cases hspace
    | @char d r hd =>
      rcases eq_or_isSpace_of_cons_eq hg h with ⟨rfl, rfl, hu⟩ | ⟨hspace, g₁, rfl, hg₁, hr⟩
      · exact ⟨[], r, rfl, .nil, hu⟩
      · rw [if_neg (ne_quote_of_isSpace hspace)] at hr
        obtain ⟨g', t', rfl, hleaves, hu⟩ := ih r.length (by simp) hg₁ hr rfl
        exact ⟨d :: g', t', rfl, .space hspace hleaves, hu⟩

/-- What is kept is spacing only if there is nothing but filler. -/
theorem isOpenEnd_of_isSpacing {t : Text} (h : IsSpacing (keptFrom .code t)) : IsOpenEnd t := by
  induction hn : t.length using Nat.strong_induction_on generalizing t with
  | _ n ih =>
    subst hn
    generalize hkept : keptFrom .code t = k at h
    have hopens := hkept ▸ opens t
    cases hopens with
    | nil => exact ⟨[], [], .nil, rfl, .inl rfl⟩
    | @line body r hbody =>
      obtain ⟨g, last, hg, rfl, hlast⟩ := ih r.length (by simp; omega)
        (fun x hx => h x (List.mem_cons_of_mem _ hx)) rfl
      exact ⟨_, last, .line hbody hg, by simp, hlast⟩
    | @lastLine body hbody => exact ⟨[], _, .nil, rfl, .inr (.inl ⟨body, hbody, rfl⟩)⟩
    | @block body r hbody =>
      obtain ⟨g, last, hg, rfl, hlast⟩ := ih r.length (by simp; omega)
        (fun x hx => h x (List.mem_append_right _ hx)) rfl
      exact ⟨_, last, .block hbody hg, by simp, hlast⟩
    | @lastBlock body hbody => exact ⟨[], _, .nil, rfl, .inr (.inr ⟨body, hbody, rfl⟩)⟩
    | slash => cases h '/' List.mem_cons_self
    | @char c r hc =>
      have hspace := h c List.mem_cons_self
      rw [if_neg (ne_quote_of_isSpace hspace)] at h
      obtain ⟨g, last, hg, rfl, hlast⟩ := ih r.length (by simp)
        (fun x hx => h x (List.mem_cons_of_mem _ hx)) rfl
      exact ⟨c :: g, last, .space hspace hg, rfl, hlast⟩

/-! ## Tokens -/

/-- A pass that copies strings up to their end, as both passes do, has copied a string that it put
out. -/
theorem exists_of_string (code string escape : Text → Text) (hstringNil : string [] = [])
    (hstring : ∀ c t, string (c :: t) =
      c :: (if c = '\\' then escape else if c = '"' then code else string) t)
    (hescapeNil : escape [] = []) (hescape : ∀ c t, escape (c :: t) = c :: string t)
    {body : Text} (hbody : IsQuoted body) {t u : Text} (h : string t = body ++ '"' :: u) :
    ∃ t', t = body ++ '"' :: t' ∧ code t' = u := by
  -- One character on, in a string and behind a backslash.
  have hstep {c : Char} {t v : Text} (h : string t = c :: v) : ∃ t', t = c :: t' ∧
      (if c = '\\' then escape else if c = '"' then code else string) t' = v := by
    cases t with
    | nil => simp [hstringNil] at h
    | cons d t =>
      rw [hstring] at h
      obtain ⟨rfl, hv⟩ := List.cons.inj h
      exact ⟨t, rfl, hv⟩
  have hstepEscape {c : Char} {t v : Text} (h : escape t = c :: v) :
      ∃ t', t = c :: t' ∧ string t' = v := by
    cases t with
    | nil => simp [hescapeNil] at h
    | cons d t =>
      rw [hescape] at h
      obtain ⟨rfl, hv⟩ := List.cons.inj h
      exact ⟨t, rfl, hv⟩
  have hplain {c : Char} {t v : Text} (hquote : c ≠ '"') (hback : c ≠ '\\')
      (h : string t = c :: v) : ∃ t', t = c :: t' ∧ string t' = v := by
    obtain ⟨t', rfl, hv⟩ := hstep h
    rw [if_neg hback, if_neg hquote] at hv
    exact ⟨t', rfl, hv⟩
  induction hbody generalizing t with
  | nil =>
    obtain ⟨t', rfl, hv⟩ := hstep h
    exact ⟨t', rfl, by simpa using hv⟩
  | plain hquote hback _ _ ih =>
    obtain ⟨t', rfl, hv⟩ := hplain hquote hback h
    obtain ⟨t'', rfl, hu⟩ := ih hv
    exact ⟨t'', rfl, hu⟩
  | short _ _ ih =>
    obtain ⟨t₁, rfl, hv₁⟩ := hstep h
    obtain ⟨t₂, rfl, hv₂⟩ := hstepEscape (by simpa using hv₁)
    obtain ⟨t', rfl, hu⟩ := ih hv₂
    exact ⟨t', rfl, hu⟩
  | @unit a b c d body ha hb hc hd _ ih =>
    have hne {x : Char} (hx : isHexDigit x = true) : x ≠ '"' ∧ x ≠ '\\' := by
      constructor <;> rintro rfl <;> cases hx
    obtain ⟨t₁, rfl, hv₁⟩ := hstep h
    obtain ⟨t₂, rfl, hv₂⟩ := hstepEscape (by simpa using hv₁)
    obtain ⟨t₃, rfl, hv₃⟩ := hplain (hne ha).1 (hne ha).2 hv₂
    obtain ⟨t₄, rfl, hv₄⟩ := hplain (hne hb).1 (hne hb).2 hv₃
    obtain ⟨t₅, rfl, hv₅⟩ := hplain (hne hc).1 (hne hc).2 hv₄
    obtain ⟨t₆, rfl, hv₆⟩ := hplain (hne hd).1 (hne hd).2 hv₅
    obtain ⟨t', rfl, hu⟩ := ih hv₆
    exact ⟨t', rfl, hu⟩

theorem exists_of_keptFrom_string {body t u : Text} (hbody : IsQuoted body)
    (h : keptFrom .string t = body ++ '"' :: u) :
    ∃ t', t = body ++ '"' :: t' ∧ keptFrom .code t' = u := by
  refine exists_of_string _ _ (keptFrom .escape) rfl (fun c t => ?_) rfl (fun _ _ => rfl) hbody h
  rw [keptFrom_cons, Place.step]
  split
  · rfl
  · split <;> rfl

theorem exists_of_putFrom_string {body t u : Text} (hbody : IsQuoted body)
    (h : putFrom .string t = body ++ '"' :: u) :
    ∃ t', t = body ++ '"' :: t' ∧ putFrom .code t' = u := by
  refine exists_of_string _ _ (putFrom .escape) rfl (fun c t => ?_) rfl (fun _ _ => rfl) hbody h
  rw [putFrom_cons, Spot.step]
  split
  · rfl
  · split <;> rfl

/-- Whether the character may stand in a word or a number, as far as the passes are concerned. -/
def isWordChar (c : Char) : Bool :=
  !Text.isBlank c && c != '/' && c != '"' && c != ',' && c != '\x7d' && c != ']'

theorem isSpace_eq_false {c : Char} (h : Text.isBlank c = false) : isSpace c = false := by
  cases hspace : isSpace c with
  | false => rfl
  | true =>
    simp only [isSpace, Bool.or_eq_true, beq_iff_eq] at hspace
    rcases hspace with ((rfl | rfl) | rfl) | rfl <;> cases h

theorem isWordChar_of_mem_number {digits : Text} (h : IsNumber digits) {c : Char}
    (hc : c ∈ digits) : isWordChar c = true := by
  rcases h.mem hc with hdigit | hmark
  · have hne : c ≠ '/' ∧ c ≠ '"' ∧ c ≠ ',' ∧ c ≠ '\x7d' ∧ c ≠ ']' := by
      refine ⟨?_, ?_, ?_, ?_, ?_⟩ <;> rintro rfl <;> cases hdigit
    simp [isWordChar, isBlank_of_isDigit hdigit, hne]
  · have hall : ∀ c ∈ numberMarks, isWordChar c = true := List.all_iff_forall_prop.1 (by decide)
    exact hall c hmark

theorem isWordChar_of_mem_tail {a : Token} (ha : a.mark ≠ '"') :
    ∀ c ∈ a.text.tail, isWordChar c = true := by
  cases a with
  | string body h => exact absurd rfl ha
  | number digits h => exact fun c hc => isWordChar_of_mem_number h (List.mem_of_mem_tail hc)
  | opening b => cases b <;> simp [Token.text]
  | closing b => cases b <;> simp [Token.text]
  | bool b => cases b <;> exact List.all_iff_forall_prop.1 (by decide)
  | null => exact List.all_iff_forall_prop.1 (by decide)
  | _ => simp [Token.text]

theorem mark_ne_slash (a : Token) : a.mark ≠ '/' := by
  cases a with
  | number digits h => exact Token.mark_number_ne h (by decide) (by decide)
  | opening b => cases b <;> decide
  | closing b => cases b <;> decide
  | bool b => cases b <;> decide
  | string body h => exact (by decide : '"' ≠ '/')
  | _ => decide

/-! ### In the first pass -/

/-- The characters of a word that is kept stand behind each other, but for comments that leave
nothing. -/
theorem exists_broken {word : Text} (hword : ∀ c ∈ word, isWordChar c = true) (first : Char)
    {t u : Text} (h : keptFrom .code t = word ++ u) :
    ∃ w t', first :: t = w ++ t' ∧ Broken (first :: word) w ∧ keptFrom .code t' = u := by
  induction word generalizing first t with
  | nil => exact ⟨[first], t, rfl, .last first, h⟩
  | cons c word ih =>
    obtain ⟨hc, hword⟩ := List.forall_mem_cons.1 hword
    simp only [isWordChar, Bool.and_eq_true, Bool.not_eq_true', bne_iff_ne] at hc
    obtain ⟨⟨⟨⟨⟨hblank, hslash⟩, hquote⟩, -⟩, -⟩, -⟩ := hc
    have hnone : IsSpacing [] := by simp [IsSpacing]
    obtain ⟨g, t', rfl, hleaves, hu⟩ := exists_leaves hnone (isSpace_eq_false hblank) hslash h
    rw [if_neg hquote] at hu
    obtain ⟨w, t'', hw, hbroken, hrest⟩ := ih hword c hu
    exact ⟨first :: (g ++ w), t'', by simp [hw], .more first hleaves.isSilent hbroken, hrest⟩

/-- A token that is kept behind spacing was written behind filler. -/
theorem exists_written (a : Token) {t g u : Text} (hg : IsSpacing g)
    (h : keptFrom .code t = g ++ (a.text ++ u)) :
    ∃ g' w t', t = g' ++ (w ++ t') ∧ IsFiller g' ∧ Written a w ∧ keptFrom .code t' = u := by
  rw [a.text_append] at h
  obtain ⟨g', t', rfl, hleaves, hu⟩ := exists_leaves hg a.isSpace_mark (mark_ne_slash a) h
  by_cases hquote : a.mark = '"'
  · obtain ⟨body, hbody, rfl⟩ := Token.mark_eq_quote_iff.1 hquote
    rw [if_pos hquote] at hu
    have hstring : keptFrom .string t' = body ++ '"' :: u := by simpa [Token.text] using hu
    obtain ⟨t'', rfl, hrest⟩ := exists_of_keptFrom_string hbody hstring
    refine ⟨g', '"' :: (body ++ ['"']), t'', ?_, hleaves.isFiller, rfl, hrest⟩
    simp [hquote]
  · rw [if_neg hquote] at hu
    obtain ⟨w, t'', hw, hbroken, hrest⟩ := exists_broken (isWordChar_of_mem_tail hquote) a.mark hu
    rw [← a.text_eq_cons] at hbroken
    refine ⟨g', w, t'', by rw [hw], hleaves.isFiller, ?_, hrest⟩
    cases a with
    | string body h => exact absurd rfl hquote
    | _ => exact hbroken

/-- What is left of a text without its comments is made of the text's own tokens. -/
theorem scattered_of_render {ps : List Piece} {w : Text} (hps : ∀ p ∈ ps, IsSpacing p.gap)
    (hw : IsSpacing w) {t : Text} (h : keptFrom .code t = render ps w) :
    Scattered (ps.map Piece.token) t := by
  induction ps generalizing t with
  | nil =>
    rw [render] at h
    exact .last (isOpenEnd_of_isSpacing (h ▸ hw))
  | cons p ps ih =>
    obtain ⟨hgap, hps⟩ := List.forall_mem_cons.1 hps
    obtain ⟨g', w', t', rfl, hfiller, hwritten, hrest⟩ := exists_written p.token hgap h
    exact .token hfiller hwritten (ih hps hrest)

/-! ### In the second pass -/

/-- Texts that start with blank characters, and then others, are alike in both parts. -/
theorem append_cons_inj {g g' u u' : Text} {c c' : Char} (hg : ∀ x ∈ g, Text.isBlank x = true)
    (hg' : ∀ x ∈ g', Text.isBlank x = true) (hc : Text.isBlank c = false)
    (hc' : Text.isBlank c' = false) (h : g ++ c :: u = g' ++ c' :: u') :
    g = g' ∧ c = c' ∧ u = u' := by
  induction g generalizing g' with
  | nil =>
    cases g' with
    | nil => simpa using h
    | cons x g' =>
      obtain ⟨rfl, -⟩ := List.cons.inj h
      rw [hg' c List.mem_cons_self] at hc
      cases hc
  | cons x g ih =>
    cases g' with
    | nil =>
      obtain ⟨rfl, -⟩ := List.cons.inj h
      rw [hg x List.mem_cons_self] at hc'
      cases hc'
    | cons y g' =>
      obtain ⟨rfl, htail⟩ := List.cons.inj h
      obtain ⟨rfl, hrest⟩ := ih (fun z hz => hg z (List.mem_cons_of_mem _ hz))
        (fun z hz => hg' z (List.mem_cons_of_mem _ hz)) htail
      exact ⟨rfl, hrest⟩

theorem isBlank_of_isSpace {c : Char} (h : isSpace c = true) : Text.isBlank c = true := by
  cases hblank : Text.isBlank c with
  | true => rfl
  | false =>
    rw [isSpace_eq_false hblank] at h
    cases h

/-- A character that is put out behind spacing stands there in the text, or it closes a bracket and a
comma was left out. -/
theorem exists_gap {t g u : Text} {c : Char} (hg : IsSpacing g) (hc : Text.isBlank c = false)
    (h : putFrom .code t = g ++ c :: u) :
    (∃ t', t = g ++ c :: t' ∧ putFrom .code (c :: t') = c :: u) ∨
      ∃ g₁ g₂ t', g = g₁ ++ g₂ ∧ t = g₁ ++ ',' :: (g₂ ++ c :: t') ∧ (c = '\x7d' ∨ c = ']') ∧
        putFrom .code t' = u := by
  induction t generalizing g with
  | nil => simp [putFrom, Spot.held] at h
  | cons x t ih =>
    by_cases hx : x = ','
    · subst hx
      rcases passes_comma t with ⟨blanks, b, rest, rfl, hblanks, hb, hput⟩ | hput
      · have hbBlank : Text.isBlank b = false := by rcases hb with rfl | rfl <;> decide
        rw [hput] at h
        obtain ⟨rfl, rfl, hu⟩ := append_cons_inj hblanks
          (fun d hd => isBlank_of_isSpace (hg d hd)) hbBlank hc h
        exact .inr ⟨[], blanks, rest, rfl, rfl, hb, hu⟩
      · rcases eq_or_isSpace_of_cons_eq hg (hput.symm.trans h) with ⟨rfl, rfl, -⟩ | ⟨hspace, -⟩
        · exact .inl ⟨t, rfl, h⟩
        · cases hspace
    · have hput := putFrom_code_cons hx t
      rcases eq_or_isSpace_of_cons_eq hg (hput.symm.trans h) with
        ⟨rfl, rfl, -⟩ | ⟨hspace, g, rfl, hg, htail⟩
      · exact .inl ⟨t, rfl, h⟩
      · rw [if_neg (ne_quote_of_isSpace hspace)] at htail
        rcases ih hg htail with ⟨t', rfl, ht'⟩ | ⟨g₁, g₂, t', rfl, rfl, hclosing, hu⟩
        · exact .inl ⟨t', rfl, ht'⟩
        · exact .inr ⟨x :: g₁, g₂, t', rfl, rfl, hclosing, hu⟩

/-- What is put out is spacing only if the text is. -/
theorem eq_of_putFrom_isSpacing {t : Text} (h : IsSpacing (putFrom .code t)) :
    putFrom .code t = t := by
  induction t with
  | nil => rfl
  | cons x t ih =>
    by_cases hx : x = ','
    · subst hx
      rcases passes_comma t with ⟨blanks, b, rest, rfl, -, hb, hput⟩ | hput
      · have hspace : isSpace b = true := h b (by simp [hput])
        rcases hb with rfl | rfl <;> cases hspace
      · have hspace : isSpace ',' = true := h ',' (by simp [hput])
        cases hspace
    · rw [putFrom_code_cons hx] at h ⊢
      rw [if_neg (ne_quote_of_isSpace (h x List.mem_cons_self))] at h ⊢
      rw [ih (fun d hd => h d (List.mem_cons_of_mem _ hd))]

theorem exists_of_putFrom_comma {t u : Text} (h : putFrom .code (',' :: t) = ',' :: u) :
    putFrom .code t = u := by
  rcases passes_comma t with ⟨blanks, b, rest, rfl, hblanks, hb, hput⟩ | hput
  · rw [hput] at h
    cases blanks with
    | nil =>
      obtain ⟨rfl, -⟩ := List.cons.inj h
      rcases hb with hb | hb <;> cases hb
    | cons d blanks =>
      obtain ⟨rfl, -⟩ := List.cons.inj h
      cases hblanks ',' List.mem_cons_self
  · rw [hput] at h
    exact (List.cons.inj h).2

/-- A word that is put out stands in the text. -/
theorem exists_of_putFrom_word {word : Text} (hword : ∀ c ∈ word, isWordChar c = true)
    {t u : Text} (h : putFrom .code t = word ++ u) :
    ∃ t', t = word ++ t' ∧ putFrom .code t' = u := by
  induction word generalizing t with
  | nil => exact ⟨t, rfl, h⟩
  | cons c word ih =>
    obtain ⟨hc, hword⟩ := List.forall_mem_cons.1 hword
    simp only [isWordChar, Bool.and_eq_true, Bool.not_eq_true', bne_iff_ne] at hc
    obtain ⟨⟨⟨⟨⟨hblank, -⟩, hquote⟩, hcomma⟩, hbrace⟩, hbracket⟩ := hc
    have hnone : IsSpacing [] := by simp [IsSpacing]
    rcases exists_gap hnone hblank h with ⟨t', rfl, ht'⟩ | ⟨-, -, -, -, -, hclosing, -⟩
    · rw [putFrom_code_cons hcomma, if_neg hquote] at ht'
      obtain ⟨t'', rfl, hu⟩ := ih hword (List.cons.inj ht').2
      exact ⟨t'', rfl, hu⟩
    · exact absurd hclosing (by simp [hbrace, hbracket])

/-- A token that is put out behind spacing stands there in the text, or it is a closing bracket and a
comma was left out before it. -/
theorem exists_token (a : Token) {t g u : Text} (hg : IsSpacing g)
    (h : putFrom .code t = g ++ (a.text ++ u)) :
    (∃ t', t = g ++ (a.text ++ t') ∧ putFrom .code t' = u) ∨
      ∃ b g₁ g₂ t', a = .closing b ∧ g = g₁ ++ g₂ ∧
        t = g₁ ++ (Token.comma.text ++ (g₂ ++ (a.text ++ t'))) ∧ putFrom .code t' = u := by
  rw [a.text_append] at h
  rcases exists_gap hg (isBlank_mark a) h with
    ⟨t', rfl, ht'⟩ | ⟨g₁, g₂, t', rfl, rfl, hclosing, hu⟩
  · refine .inl ?_
    by_cases hcomma : a = .comma
    · subst hcomma
      exact ⟨t', rfl, exists_of_putFrom_comma ht'⟩
    · rw [putFrom_code_cons (fun hmark => hcomma (Token.mark_eq_comma_iff.1 hmark))] at ht'
      have htail := (List.cons.inj ht').2
      by_cases hquote : a.mark = '"'
      · rw [if_pos hquote] at htail
        obtain ⟨body, hbody, rfl⟩ := Token.mark_eq_quote_iff.1 hquote
        have hstring : putFrom .string t' = body ++ '"' :: u := by
          simpa [Token.text] using htail
        obtain ⟨t'', rfl, hu⟩ := exists_of_putFrom_string hbody hstring
        exact ⟨t'', by simp [Token.text, hquote], hu⟩
      · rw [if_neg hquote] at htail
        obtain ⟨t'', rfl, hu⟩ := exists_of_putFrom_word (isWordChar_of_mem_tail hquote) htail
        exact ⟨t'', by rw [a.text_append], hu⟩
  · refine .inr ?_
    obtain ⟨b, rfl⟩ : ∃ b, a = .closing b := by
      rcases hclosing with hmark | hmark
      · exact ⟨.object, Token.mark_eq_closing_iff.1 hmark⟩
      · exact ⟨.list, Token.mark_eq_closing_iff.1 hmark⟩
    refine ⟨b, g₁, g₂, t', rfl, rfl, ?_, ?_⟩
    · rw [(Token.closing b).text_append]
      cases b <;> rfl
    · cases b <;> exact hu

/-- Strict tokens that are put out stand in the text, with commas before closing brackets that were
left out. -/
theorem exists_render {ps : List Piece} {w : Text} (hps : ∀ p ∈ ps, IsSpacing p.gap)
    (hw : IsSpacing w) {t : Text} (h : putFrom .code t = render ps w) :
    ∃ qs, t = render qs w ∧ (∀ q ∈ qs, IsSpacing q.gap) ∧
      Sheds (qs.map Piece.token) (ps.map Piece.token) := by
  induction ps generalizing t with
  | nil =>
    rw [render] at h
    exact ⟨[], (eq_of_putFrom_isSpacing (h ▸ hw)).symm.trans h, by simp, .nil⟩
  | cons p ps ih =>
    obtain ⟨hgap, hps⟩ := List.forall_mem_cons.1 hps
    rcases exists_token p.token hgap h with ⟨t', rfl, hu⟩ | ⟨b, g₁, g₂, t', hb, hg, rfl, hu⟩
    · obtain ⟨qs, rfl, hqs, hsheds⟩ := ih hps hu
      exact ⟨p :: qs, rfl, List.forall_mem_cons.2 ⟨hgap, hqs⟩, .keep p.token hsheds⟩
    · obtain ⟨qs, rfl, hqs, hsheds⟩ := ih hps hu
      have hg₁ : IsSpacing g₁ := fun d hd => hgap d (hg ▸ List.mem_append_left _ hd)
      have hg₂ : IsSpacing g₂ := fun d hd => hgap d (hg ▸ List.mem_append_right _ hd)
      refine ⟨⟨g₁, .comma⟩ :: ⟨g₂, p.token⟩ :: qs, rfl, ?_, ?_⟩
      · exact List.forall_mem_cons.2 ⟨hg₁, List.forall_mem_cons.2 ⟨hg₂, hqs⟩⟩
      · rw [List.map_cons, List.map_cons, List.map_cons, hb]
        exact .shed b hsheds

/-! ## Main result -/

/-- A text whose strict form is a value of strict JSON consists of the tokens of that value, with
single commas more before closing brackets, with filler between them, and with comments in odd
places. -/
theorem exists_scattered_of_spaced {t : Text} (f : Form .value)
    (h : Spaced (f.tokens false) (toStrict t)) :
    ∃ us, Sheds us (f.tokens false) ∧ Scattered us t := by
  obtain ⟨ps, w, hps, hgaps, hw, hrender⟩ := h
  rw [toStrict, stripTrailingCommas_eq_putFrom] at hrender
  obtain ⟨qs, hkept, hqs, hsheds⟩ := exists_render hgaps hw hrender
  rw [stripComments_eq_keptFrom] at hkept
  exact ⟨_, hps ▸ hsheds, scattered_of_render hqs hw hkept⟩

theorem exists_scattered_commented :
    ∃ us, Sheds us [.opening .list, .null, .closing .list] ∧
      Scattered us "[nu/**/ll,]".toList := by
  have h : Spaced ((Form.full .list (.last (.item .null)) false).tokens false)
      (toStrict "[nu/**/ll,]".toList) :=
    ⟨[⟨[], .opening .list⟩, ⟨[], .null⟩, ⟨[], .closing .list⟩], [], rfl, by simp [IsSpacing],
      by simp [IsSpacing], by decide⟩
  exact exists_scattered_of_spaced _ h

/-! ## Texts that are no relaxed JSON -/

/-- Filler starts with spacing or a slash. -/
theorem IsFiller.eq_nil {g v : Text} {c : Char} {t : Text} (h : IsFiller g) (heq : g ++ v = c :: t)
    (hspace : isSpace c = false) (hslash : c ≠ '/') : g = [] := by
  cases h with
  | nil => rfl
  | space hc =>
    obtain ⟨rfl, -⟩ := List.cons.inj heq
    rw [hc] at hspace
    cases hspace
  | block => exact absurd (List.cons.inj heq).1.symm hslash
  | line => exact absurd (List.cons.inj heq).1.symm hslash

/-- A character that starts neither spacing nor a comment starts the first token. -/
theorem layout_char {us : List Token} {c : Char} {t : Text} (hspace : isSpace c = false)
    (hslash : c ≠ '/') (h : Layout IsFiller IsLastFiller us (c :: t)) :
    ∃ a us' r, us = a :: us' ∧ a.mark = c ∧ t = a.text.tail ++ r ∧
      Layout IsFiller IsLastFiller us' r := by
  cases us with
  | nil =>
    generalize hu : c :: t = u at h
    cases layout_nil_iff.1 h with
    | filler hg =>
      have hnil := hg.eq_nil ((List.append_nil u).trans hu.symm) hspace hslash
      rw [hnil] at hu
      cases hu
    | line hg =>
      have hnil := hg.eq_nil hu.symm hspace hslash
      rw [hnil] at hu
      exact absurd (List.cons.inj hu).1 hslash
  | cons a us =>
    obtain ⟨g, r, hg, hr, heq⟩ := layout_cons_iff.1 h
    obtain rfl := hg.eq_nil heq.symm hspace hslash
    rw [List.nil_append, a.text_append] at heq
    obtain ⟨rfl, htail⟩ := List.cons.inj heq
    exact ⟨a, us, r, rfl, rfl, htail, hr⟩

/-- A block comment without an end fits nowhere. -/
theorem not_layout_openBlock (us : List Token) :
    ¬ Layout IsFiller IsLastFiller us ['/', '*'] := by
  have hfiller {g v : Text} (h : IsFiller g) (heq : g ++ v = ['/', '*']) : g = [] := by
    cases h with
    | nil => rfl
    | space hc =>
      obtain ⟨rfl, -⟩ := List.cons.inj heq
      cases hc
    | block => simp at heq
    | line => simp at heq
  intro h
  generalize hu : ['/', '*'] = u at h
  cases us with
  | nil =>
    cases layout_nil_iff.1 h with
    | filler hg =>
      have hnil := hfiller hg ((List.append_nil u).trans hu.symm)
      rw [hnil] at hu
      cases hu
    | line hg =>
      have hnil := hfiller hg hu.symm
      rw [hnil] at hu
      cases hu
  | cons a us =>
    obtain ⟨g, r, hg, -, heq⟩ := layout_cons_iff.1 h
    obtain rfl := hfiller hg (heq.symm.trans hu.symm)
    rw [← hu, List.nil_append, a.text_append] at heq
    exact mark_ne_slash a (List.cons.inj heq).1.symm

/-- A form has a token at its start, and it is no comma. -/
theorem Form.exists_tokens_eq_cons {k : Part} (f : Form k) (relaxed : Bool) :
    ∃ a ts, f.tokens relaxed = a :: ts ∧ a ≠ .comma := by
  induction f with
  | null => exact ⟨_, _, rfl, by simp⟩
  | bool => exact ⟨_, _, rfl, by simp⟩
  | string => exact ⟨_, _, rfl, by simp⟩
  | number => exact ⟨_, _, rfl, by simp⟩
  | empty => exact ⟨_, _, rfl, by simp⟩
  | full => exact ⟨_, _, rfl, by simp⟩
  | item value ih => exact ih
  | member => exact ⟨_, _, rfl, by simp⟩
  | last entry ih => exact ih
  | more entry entries ih =>
    obtain ⟨a, ts, heq, ha⟩ := ih
    exact ⟨a, _, by rw [Form.tokens, heq]; rfl, ha⟩

/-- A comment inside of a keyword leaves no token there. -/
theorem not_layout_cutNull (us : List Token) (t : Text) :
    ¬ Layout IsFiller IsLastFiller us ('[' :: 'n' :: 'u' :: '/' :: t) := by
  intro h
  obtain ⟨a, us, r, -, hmark, hr, h⟩ := layout_char rfl (by decide) h
  obtain rfl := (Token.mark_eq_opening_iff (b := .list)).1 hmark
  obtain rfl : r = 'n' :: 'u' :: '/' :: t := hr.symm
  -- Behind the bracket a token starts with `n`, so it would be `null`.
  obtain ⟨a, us, r, -, hmark, hr, -⟩ := layout_char rfl (by decide) h
  obtain rfl := Token.mark_eq_null_iff.1 hmark
  have hcut : 'u' :: '/' :: t = 'u' :: 'l' :: 'l' :: r := hr
  simp at hcut

/-- No value has a comma right behind its opening bracket. -/
theorem not_layout_loneComma (f : Form .value) (t : Text) :
    ¬ Layout IsFiller IsLastFiller (f.tokens true) ('\x7b' :: ',' :: t) := by
  intro h
  obtain ⟨a, us, r, hus, hmark, hr, h⟩ := layout_char rfl (by decide) h
  obtain rfl := (Token.mark_eq_opening_iff (b := .object)).1 hmark
  obtain rfl : r = ',' :: t := hr.symm
  obtain ⟨a, us, r, rfl, hmark, -, -⟩ := layout_char rfl (by decide) h
  obtain rfl := Token.mark_eq_comma_iff.1 hmark
  cases f with
  | full b entries =>
    obtain ⟨a, ts, heq, ha⟩ := Form.exists_tokens_eq_cons entries true
    rw [Form.tokens, heq] at hus
    exact ha (List.cons.inj (List.cons.inj hus).2).1
  | _ => simp [Form.tokens] at hus

/-- A block comment without an end does not fit behind an empty object. -/
theorem not_layout_unended (us : List Token) :
    ¬ Layout IsFiller IsLastFiller us ['\x7b', '\x7d', '/', '*'] := by
  intro h
  obtain ⟨a, us, r, -, hmark, hr, h⟩ := layout_char rfl (by decide) h
  obtain rfl := (Token.mark_eq_opening_iff (b := .object)).1 hmark
  obtain rfl : r = ['\x7d', '/', '*'] := hr.symm
  obtain ⟨a, us, r, -, hmark, hr, h⟩ := layout_char rfl (by decide) h
  obtain rfl := (Token.mark_eq_closing_iff (b := .object)).1 hmark
  obtain rfl : r = ['/', '*'] := hr.symm
  exact not_layout_openBlock us h

/-- Comments inside of a token, a comma alone in brackets, and a comment without an end: none of
these texts is relaxed JSON, but all of them become strict JSON. -/
theorem not_layout_of_spaced :
    ((∃ f : Form .value, Spaced (f.tokens false) (toStrict "[nu/**/ll,null]".toList)) ∧
      ∀ f : Form .value,
        ¬ Layout IsFiller IsLastFiller (f.tokens true) "[nu/**/ll,null]".toList) ∧
    ((∃ f : Form .value, Spaced (f.tokens false) (toStrict "\x7b,\x7d".toList)) ∧
      ∀ f : Form .value, ¬ Layout IsFiller IsLastFiller (f.tokens true) "\x7b,\x7d".toList) ∧
    ((∃ f : Form .value, Spaced (f.tokens false) (toStrict "\x7b\x7d/*".toList)) ∧
      ∀ f : Form .value,
        ¬ Layout IsFiller IsLastFiller (f.tokens true) "\x7b\x7d/*".toList) := by
  have hnone : IsSpacing [] := by simp [IsSpacing]
  have hbraces : Spaced [.opening .object, .closing .object] ['\x7b', '\x7d'] :=
    ⟨[⟨[], .opening .object⟩, ⟨[], .closing .object⟩], [], rfl, by simp [IsSpacing], hnone, rfl⟩
  refine ⟨⟨⟨.full .list (.more (.item .null) (.last (.item .null))) false, ?_⟩,
      fun f => not_layout_cutNull _ _⟩,
    ⟨⟨.empty .object, hbraces⟩, fun f => not_layout_loneComma f _⟩,
    ⟨⟨.empty .object, hbraces⟩, fun f => not_layout_unended _⟩⟩
  exact ⟨[⟨[], .opening .list⟩, ⟨[], .null⟩, ⟨[], .comma⟩, ⟨[], .null⟩, ⟨[], .closing .list⟩], [],
    rfl, by simp [IsSpacing], hnone, by decide⟩

end Jsonc

end SourceClosure
