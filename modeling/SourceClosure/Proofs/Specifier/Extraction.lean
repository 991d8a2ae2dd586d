import SourceClosure.Proofs.Specifier.Quoted
import SourceClosure.Proofs.Text.Distinct

/-!
# Specifiers of a source text

A source text in which statements of the supported forms stand on lines of their own, among lines
without quotation marks, yields exactly the quoted texts of its statements, in the order of their
first occurrence (`extract_exact`). The scan need not take the statement itself for that: behind the
line `import a` it takes that line and the statement `export b from "c"` on the next one together,
which quotes the same text.
-/

namespace SourceClosure

namespace Specifier

/-! ## Statements -/

/-- Blanks, perhaps none. -/
def IsGap (t : Text) : Prop :=
  ∀ c ∈ t, Text.isBlank c = true

/-- What the forms of a statement have before and behind the quoted text. The scan asks for no blanks
between the words, so every gap may be empty. -/
inductive Form : (lead tail : Text) → Prop where
  /-- `import "a"` -/
  | effect {gap : Text} : IsGap gap → Form ("import".toList ++ gap) []
  /-- `import b from "a"` and `export { b } from "a"` -/
  | clause {word gap₁ names gap₂ gap₃ : Text} :
    word = "import".toList ∨ word = "export".toList →
    IsGap gap₁ → names ≠ [] → (∀ c ∈ names, isClauseChar c = true) → IsGap gap₂ → IsGap gap₃ →
    Form (word ++ (gap₁ ++ names ++ gap₂ ++ "from".toList ++ gap₃)) []
  /-- `import("a")` and `require("a")` -/
  | call {word gap₁ gap₂ gap₃ : Text} :
    word = "import".toList ∨ word = "require".toList →
    IsGap gap₁ → IsGap gap₂ → IsGap gap₃ →
    Form (word ++ (gap₁ ++ '(' :: gap₂)) (gap₃ ++ [')'])

/-- A statement of one of the forms. The text that it quotes is not blank. -/
structure Statement where
  lead : Text
  mark : Char
  inner : Text
  tail : Text
  form : Form lead tail
  isQuote_mark : isQuote mark = true
  quotable : ∀ c ∈ inner, isQuotable c = true
  not_blank : ¬ IsGap inner

/-- The statement as it is written, up to the semicolon. -/
def Statement.text (s : Statement) : Text :=
  s.lead ++ s.mark :: (s.inner ++ s.mark :: s.tail)

/-- A piece of a source text. -/
inductive Piece where
  /-- A statement on lines of its own. -/
  | statement (s : Statement)
  /-- A line without quotation marks. -/
  | line (t : Text) (h : QuoteFree t)

/-- The piece as it is written, with the line break that ends it. -/
def Piece.text : Piece → Text
  | statement s => s.text ++ [';', '\n']
  | line t _ => t ++ ['\n']

/-- The quoted text of a statement, without the blanks around it. -/
def Piece.specifier? : Piece → Option Text
  | statement s => some (Text.strip s.inner)
  | line _ _ => none

/-- A source text of pieces, with perhaps a last line that no line break ends. -/
structure Source where
  pieces : List Piece
  last : Text
  quoteFree_last : QuoteFree last

/-- The whole text. -/
def Source.text (s : Source) : Text :=
  s.pieces.flatMap Piece.text ++ s.last

/-! ## Statements are recognized -/

theorem IsGap.quoteFree {gap : Text} (h : IsGap gap) : QuoteFree gap :=
  fun c hc => isQuote_of_isBlank (h c hc)

theorem dropWhile_gap {gap t : Text} {c : Char} (hgap : IsGap gap) (hc : Text.isBlank c = false) :
    (gap ++ c :: t).dropWhile Text.isBlank = c :: t := by
  rw [List.dropWhile_append_of_pos hgap, List.dropWhile_cons_of_neg (by rw [hc]; decide)]

theorem isBlank_of_isQuote {c : Char} (h : isQuote c = true) : Text.isBlank c = false := by
  rw [Bool.eq_false_iff]
  intro hblank
  rw [isQuote_of_isBlank hblank] at h
  cases h

theorem Form.quoteFree_lead {lead tail : Text} (h : Form lead tail) : QuoteFree lead := by
  have word {w : Text} (hw : w = "import".toList ∨ w = "export".toList ∨ w = "require".toList) :
      QuoteFree w := by
    rcases hw with rfl | rfl | rfl <;> decide
  cases h with
  | effect hgap => exact quoteFree_append.2 ⟨word (.inl rfl), hgap.quoteFree⟩
  | clause hword h₁ _ hnames h₂ h₃ =>
    have hnames : QuoteFree _ := fun c hc => isQuote_of_isClauseChar (hnames c hc)
    simp only [quoteFree_append]
    exact ⟨word (hword.imp_right .inl), ⟨⟨⟨h₁.quoteFree, hnames⟩, h₂.quoteFree⟩, by decide⟩,
      h₃.quoteFree⟩
  | call hword h₁ h₂ _ =>
    refine quoteFree_append.2 ⟨word (hword.imp_right .inr), quoteFree_append.2 ⟨h₁.quoteFree, ?_⟩⟩
    exact List.forall_mem_cons.2 ⟨by decide, h₂.quoteFree⟩

theorem isSome_statement?_of_afterClause? {word t : Text}
    (hword : word = "import".toList ∨ word = "export".toList)
    (h : (afterClause? false t).isSome) : (statement? false (word ++ t)).isSome := by
  unfold statement?
  rcases hword with rfl | rfl
  · rw [Text.after?_eq_some_iff.2 rfl]
    simp [h]
  · have himport : Text.after? "import".toList ("export".toList ++ t) = none := rfl
    rw [himport, Text.after?_eq_some_iff.2 rfl]
    exact h

theorem isSome_statement?_of_inParentheses? {word t : Text}
    (hword : word = "import".toList ∨ word = "require".toList)
    (h : (inParentheses? t).isSome) : (statement? false (word ++ t)).isSome := by
  unfold statement?
  rcases hword with rfl | rfl
  · rw [Text.after?_eq_some_iff.2 rfl]
    simp [h]
  · have himport : Text.after? "import".toList ("require".toList ++ t) = none := rfl
    have hexport : Text.after? "export".toList ("require".toList ++ t) = none := rfl
    rw [himport, hexport, Text.after?_eq_some_iff.2 rfl]
    exact h

theorem isFromClause_from {p gap : Text} (hp : p ≠ []) (hgap : IsGap gap) :
    isFromClause (p ++ "from".toList ++ gap) = true := by
  have hgap' : IsGap gap.reverse := fun c hc => hgap c (List.mem_reverse.1 hc)
  have htrim : Text.trimEnd Text.isBlank (p ++ "from".toList ++ gap) = p ++ "from".toList := by
    have hm : Text.isBlank 'm' = false := by decide
    rw [Text.trimEnd, List.reverse_append, List.dropWhile_append_of_pos hgap', List.reverse_append]
    change (List.dropWhile Text.isBlank ('m' :: (['o', 'r', 'f'] ++ p.reverse))).reverse = _
    rw [List.dropWhile_cons_of_neg (by rw [hm]; decide)]
    simp
  rw [isFromClause, htrim, Text.before?_eq_some_iff.2 rfl]
  simp [hp]

theorem afterFrom?_of_isFromClause {clause t : Text} {c : Char}
    (hclause : ∀ d ∈ clause, isClauseChar d = true) (hfrom : isFromClause clause = true)
    (hc : isQuote c = true) :
    afterFrom? (clause ++ c :: t) = quoted? (c :: t) := by
  have hstop : isClauseChar c = false := by
    rw [Bool.eq_false_iff]
    intro h
    rw [isQuote_of_isClauseChar h] at hc
    cases hc
  rw [afterFrom?, List.takeWhile_append_of_pos hclause, List.dropWhile_append_of_pos hclause,
    List.takeWhile_cons_of_neg (by simp [hstop]), List.dropWhile_cons_of_neg (by simp [hstop]),
    List.append_nil, if_pos hfrom]

theorem isSome_afterClause?_of_afterFrom? {t : Text} (h : (afterFrom? t).isSome) :
    (afterClause? false t).isSome := by
  unfold afterClause?
  split
  · rfl
  · split
    · rfl
    · exact h

/-- A statement of one of the forms is recognized as one. -/
theorem Form.isSome_statement? {lead tail inner t : Text} {mark : Char} (h : Form lead tail)
    (hmark : isQuote mark = true)
    (hquoted : (quoted? (mark :: (inner ++ mark :: (tail ++ t)))) = some (inner, tail ++ t)) :
    (Specifier.statement? false (lead ++ mark :: (inner ++ mark :: (tail ++ t)))).isSome := by
  have hblank := isBlank_of_isQuote hmark
  cases h with
  | effect hgap =>
    rw [List.append_assoc]
    refine isSome_statement?_of_afterClause? (.inl rfl) ?_
    rw [afterClause?, afterBlank?, dropWhile_gap hgap hblank, hquoted]
    rfl
  | clause hword h₁ hne hnames h₂ h₃ =>
    have hclause : ∀ gap, IsGap gap → ∀ c ∈ gap, isClauseChar c = true :=
      fun _ hgap c hc => isClauseChar_of_isBlank (hgap c hc)
    rw [List.append_assoc]
    refine isSome_statement?_of_afterClause? hword (isSome_afterClause?_of_afterFrom? ?_)
    rw [afterFrom?_of_isFromClause _ (isFromClause_from (by simp [hne]) h₃) hmark, hquoted]
    · rfl
    · simp only [List.forall_mem_append]
      exact ⟨⟨⟨⟨hclause _ h₁, hnames⟩, hclause _ h₂⟩, List.all_eq_true.1 (by decide)⟩,
        hclause _ h₃⟩
  | call hword h₁ h₂ h₃ =>
    have hopen : Text.isBlank '(' = false := by decide
    have hclose : Text.isBlank ')' = false := by decide
    rw [List.append_assoc]
    refine isSome_statement?_of_inParentheses? hword ?_
    rw [List.append_assoc, List.cons_append, inParentheses?, dropWhile_gap h₁ hopen]
    simp only [dropWhile_gap h₂ hblank, hquoted]
    rw [List.append_assoc, List.cons_append, dropWhile_gap h₃ hclose]
    rfl

/-- Behind its quoted text a statement has nothing, or a closing parenthesis. -/
theorem Form.tail_cases {lead tail : Text} (h : Form lead tail) :
    tail = [] ∨ ∃ gap, IsGap gap ∧ tail = gap ++ [')'] := by
  cases h with
  | effect => exact .inl rfl
  | clause => exact .inl rfl
  | call _ _ _ hgap => exact .inr ⟨_, hgap, rfl⟩

/-- Where a statement is over, nothing to find is left of it before its semicolon. -/
theorem Form.exists_of_closes {lead tail t rest : Text} (h : Form lead tail)
    (hclose : Closes (tail ++ ';' :: t) rest) : ∃ u, QuoteFree u ∧ rest = u ++ ';' :: t := by
  rcases h.tail_cases with rfl | ⟨gap, hgap, rfl⟩
  · rcases hclose with rfl | hclose
    · exact ⟨[], List.forall_mem_nil _, rfl⟩
    · have hsemicolon : Text.isBlank ';' = false := by decide
      rw [List.nil_append, List.dropWhile_cons_of_neg (by simp [hsemicolon])] at hclose
      cases hclose
  · rcases hclose with rfl | hclose
    · exact ⟨_, quoteFree_append.2 ⟨hgap.quoteFree, by decide⟩, rfl⟩
    · rw [List.append_assoc, List.cons_append, dropWhile_gap hgap (by decide)] at hclose
      exact ⟨[], List.forall_mem_nil _, (List.cons.inj hclose).2.symm⟩

/-- Whatever stands before it on other lines, a statement is found, and the scan goes on behind its
quoted text. -/
theorem Statement.exists_statementsFrom (s : Statement) {p : Text} (t : Text) {free : Bool}
    (hp : QuoteFree p) (hfree : freeAfter free p = true) :
    ∃ u, QuoteFree u ∧ statementsFrom free (p ++ (s.text ++ ';' :: t)) =
      s.inner :: statementsFrom false (u ++ ';' :: t) := by
  have hne : s.inner ≠ [] := fun h => s.not_blank (h ▸ List.forall_mem_nil _)
  have hquoted : quoted? (s.mark :: (s.inner ++ s.mark :: (s.tail ++ ';' :: t))) =
      some (s.inner, s.tail ++ ';' :: t) :=
    quoted?_eq_some_iff.2 ⟨_, _, s.isQuote_mark, s.isQuote_mark, hne, s.quotable, rfl⟩
  have htext : s.text ++ ';' :: t =
      s.lead ++ s.mark :: (s.inner ++ s.mark :: (s.tail ++ ';' :: t)) := by
    simp [Statement.text]
  have hfirst : firstQuoted? (s.text ++ ';' :: t) = some (s.inner, s.tail ++ ';' :: t) := by
    rw [htext, firstQuoted?_append s.form.quoteFree_lead, firstQuoted?_of_quoted? hquoted]
  have hsome : (statement? false (s.text ++ ';' :: t)).isSome := by
    rw [htext]
    exact s.form.isSome_statement? s.isQuote_mark hquoted
  obtain ⟨rest, hclose, hfound⟩ := statementsFrom_append hp hfree hsome hfirst
  obtain ⟨u, hu, rfl⟩ := s.form.exists_of_closes hclose
  exact ⟨u, hu, hfound⟩

/-! ## Sources -/

theorem freeAfter_newline (free : Bool) (t : Text) : freeAfter free (t ++ ['\n']) = true := by
  rw [freeAfter, List.foldl_append]
  rfl

/-- The pieces of a source text yield the quoted texts of the statements among them, whatever lines
without quotation marks went before. -/
theorem statementsFrom_pieces (pieces : List Piece) {last p : Text} {free : Bool}
    (hlast : QuoteFree last) (hp : QuoteFree p) (hfree : freeAfter free p = true) :
    (statementsFrom free (p ++ (pieces.flatMap Piece.text ++ last))).map Text.strip =
      pieces.filterMap Piece.specifier? := by
  -- Lines add to the text before the next statement, of which a keyword may run into the statement.
  induction pieces generalizing p free with
  | nil =>
    have hall : QuoteFree (p ++ last) := quoteFree_append.2 ⟨hp, hlast⟩
    rw [List.flatMap_nil, List.nil_append, statementsFrom_of_quoteFree hall]
    rfl
  | cons piece pieces ih =>
    rw [List.flatMap_cons, List.append_assoc]
    cases piece with
    | line t ht =>
      have hline : QuoteFree (p ++ t ++ ['\n']) := by
        simp only [quoteFree_append]
        exact ⟨⟨hp, ht⟩, by decide⟩
      have hmore := ih hline (freeAfter_newline free (p ++ t))
      rw [List.append_assoc, List.append_assoc] at hmore
      rw [Piece.text, List.append_assoc]
      exact hmore
    | statement s =>
      obtain ⟨u, hu, hfound⟩ :=
        s.exists_statementsFrom ('\n' :: (pieces.flatMap Piece.text ++ last)) hp hfree
      have hline : QuoteFree (u ++ [';'] ++ ['\n']) := by
        simp only [quoteFree_append]
        exact ⟨⟨hu, by decide⟩, by decide⟩
      have hmore := ih hline (freeAfter_newline false (u ++ [';']))
      rw [List.append_assoc, List.append_assoc] at hmore
      rw [Piece.text, List.append_assoc, List.cons_append, List.cons_append, List.nil_append, hfound,
        List.map_cons]
      exact congrArg (List.cons (Text.strip s.inner)) hmore

/-- A source text yields exactly the quoted texts of its statements without the blanks around them,
in the order of their first occurrence. Whatever the text, what it yields are different texts that are
not empty, have no blanks around them and no quotation marks or line breaks in them. -/
theorem extract_exact :
    (∀ s : Source, extract s.text = (s.pieces.filterMap Piece.specifier?).eraseDups) ∧
      ∀ t, (extract t).Nodup ∧ ∀ s ∈ extract t,
        s ≠ [] ∧ Text.strip s = s ∧ ∀ c ∈ s, isQuote c = false ∧ c ≠ '\n' := by
  refine ⟨fun s => ?_, fun t => ⟨Text.nodup_distinct _, fun s hs => ?_⟩⟩
  · have hstrip : (statements s.text).map Text.strip = s.pieces.filterMap Piece.specifier? :=
      statementsFrom_pieces s.pieces s.quoteFree_last (List.forall_mem_nil _)
        (rfl : freeAfter true [] = true)
    have hfilter : (s.pieces.filterMap Piece.specifier?).filter (fun t => !t.isEmpty) =
        s.pieces.filterMap Piece.specifier? := by
      refine List.filter_eq_self.2 (fun t ht => ?_)
      obtain ⟨piece, -, hpiece⟩ := List.mem_filterMap.1 ht
      cases piece with
      | line => cases hpiece
      | statement s =>
        cases hpiece
        have hne : Text.strip s.inner ≠ [] := mt Text.trim_eq_nil_iff.1 s.not_blank
        simpa using hne
    rw [extract, hstrip, hfilter, Text.distinct_eq_eraseDups]
  · obtain ⟨hmem, hne⟩ := List.mem_filter.1 (Text.mem_distinct.1 hs)
    obtain ⟨q, hq, rfl⟩ := List.mem_map.1 hmem
    refine ⟨by simpa using hne, Text.trim_trim _ q, fun c hc => ?_⟩
    have hquotable := quotable_of_mem_statementsFrom hq c (Text.mem_of_mem_trim hc)
    simpa [isQuotable] using hquotable

/-- The first keyword runs into the statement on the next line, and the second statement repeats the
first. -/
example : extract "import a\nexport b from \" c \";\nrequire(\"c\");\n".toList = ["c".toList] := by
  decide

end Specifier

end SourceClosure
