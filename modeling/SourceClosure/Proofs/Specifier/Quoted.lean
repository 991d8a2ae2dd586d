import SourceClosure.Specifier.Run
import SourceClosure.Proofs.Text.Cutting

/-!
# Quoted texts and the scan

Whatever form a statement has, there is no quotation mark before its quoted text, so a statement takes
the first quoted text that comes (`statement?_sound`). Hence a text without quotation marks yields
nothing, and one that leads up to a statement yields that statement's quoted text and nothing before
it, whether the scan takes the statement or a keyword further ahead whose clause runs into it
(`statementsFrom_append`).
-/

namespace SourceClosure

namespace Specifier

/-! ## Characters -/

theorem isClauseChar_of_isBlank {c : Char} (h : Text.isBlank c = true) : isClauseChar c = true := by
  simp [isClauseChar, h]

theorem isQuote_of_isClauseChar {c : Char} (h : isClauseChar c = true) : isQuote c = false := by
  rw [Bool.eq_false_iff]
  intro hquote
  simp only [isQuote, Bool.or_eq_true, beq_iff_eq] at hquote
  rcases hquote with rfl | rfl <;> exact absurd h (by decide)

theorem isQuote_of_isBlank {c : Char} (h : Text.isBlank c = true) : isQuote c = false :=
  isQuote_of_isClauseChar (isClauseChar_of_isBlank h)

theorem isQuotable_of_isQuote {c : Char} (h : isQuote c = true) : isQuotable c = false := by
  simp [isQuotable, h]

/-- There is no quotation mark in the text. -/
def QuoteFree (t : Text) : Prop :=
  ∀ c ∈ t, isQuote c = false

instance : DecidablePred QuoteFree :=
  List.decidableBAll (fun c => isQuote c = false)

theorem quoteFree_append {s t : Text} : QuoteFree (s ++ t) ↔ QuoteFree s ∧ QuoteFree t :=
  List.forall_mem_append

/-! ## The first quoted text -/

/-- A quoted text is one or more characters between two quotation marks. -/
theorem quoted?_eq_some_iff {t inner after : Text} :
    quoted? t = some (inner, after) ↔ ∃ opening closing, isQuote opening = true ∧
      isQuote closing = true ∧ inner ≠ [] ∧ (∀ c ∈ inner, isQuotable c = true) ∧
      t = opening :: (inner ++ closing :: after) := by
  constructor
  · intro h
    cases t with
    | nil => cases h
    | cons opening t =>
      have hcut := List.takeWhile_append_dropWhile (p := isQuotable) (l := t)
      rw [quoted?] at h
      split at h
      · next hopening =>
        cases htaken : t.takeWhile isQuotable with
        | nil => simp [htaken] at h
        | cons first taken =>
          cases hrest : t.dropWhile isQuotable with
          | nil => simp [htaken, hrest] at h
          | cons closing rest =>
            rw [htaken, hrest] at h hcut
            obtain ⟨hclosing, hfound⟩ := Option.ite_none_right_eq_some.1 h
            cases hfound
            refine ⟨opening, closing, hopening, hclosing, List.cons_ne_nil _ _, fun c hc => ?_,
              congrArg (List.cons opening) hcut.symm⟩
            rw [← htaken] at hc
            exact List.mem_takeWhile_imp hc
      · cases h
  · rintro ⟨opening, closing, hopening, hclosing, hne, hinner, rfl⟩
    have hstop : isQuotable closing = false := isQuotable_of_isQuote hclosing
    rw [quoted?, if_pos hopening, List.takeWhile_append_of_pos hinner,
      List.dropWhile_append_of_pos hinner, List.takeWhile_cons, List.dropWhile_cons, hstop]
    cases inner with
    | nil => exact absurd rfl hne
    | cons c inner => simp [hclosing]

/-- The quoted text that starts at the first quotation mark, and what follows it. -/
def firstQuoted? (t : Text) : Option (Text × Text) :=
  quoted? (t.dropWhile (fun c => !isQuote c))

theorem firstQuoted?_append {p t : Text} (hp : QuoteFree p) :
    firstQuoted? (p ++ t) = firstQuoted? t := by
  rw [firstQuoted?, List.dropWhile_append_of_pos (fun c hc => by rw [hp c hc]; rfl), firstQuoted?]

theorem firstQuoted?_cons {c : Char} {t : Text} (hc : isQuote c = false) :
    firstQuoted? (c :: t) = firstQuoted? t := by
  rw [firstQuoted?, List.dropWhile_cons_of_pos (by rw [hc]; rfl), firstQuoted?]

theorem firstQuoted?_of_quoteFree {t : Text} (h : QuoteFree t) : firstQuoted? t = none := by
  rw [← List.append_nil t, firstQuoted?_append h]
  rfl

theorem firstQuoted?_dropWhile {p : Char → Bool} (hp : ∀ c, p c = true → isQuote c = false)
    (t : Text) : firstQuoted? (t.dropWhile p) = firstQuoted? t := by
  have hcut := List.takeWhile_append_dropWhile (p := p) (l := t)
  have hfree : QuoteFree (t.takeWhile p) := fun c hc => hp c (List.mem_takeWhile_imp hc)
  rw [← firstQuoted?_append (t := t.dropWhile p) hfree, hcut]

theorem firstQuoted?_of_quoted? {t : Text} {found : Text × Text} (h : quoted? t = some found) :
    firstQuoted? t = some found := by
  obtain ⟨opening, closing, hopening, -, -, -, rfl⟩ := quoted?_eq_some_iff.1 h
  rw [firstQuoted?, List.dropWhile_cons, hopening]
  exact h

/-- A quoted text is not empty, stays on its line, and is shorter than what it was found in. -/
theorem exists_of_firstQuoted? {t inner after : Text} (h : firstQuoted? t = some (inner, after)) :
    inner ≠ [] ∧ (∀ c ∈ inner, isQuotable c = true) ∧ after.length < t.length := by
  obtain ⟨opening, closing, -, -, hne, hinner, ht⟩ := quoted?_eq_some_iff.1 h
  refine ⟨hne, hinner, ?_⟩
  have hlength := (List.dropWhile_suffix (fun c => !isQuote c) (l := t)).length_le
  rw [ht, List.length_cons, List.length_append, List.length_cons] at hlength
  omega

/-! ## Statements take the first quoted text -/

/-- Behind its quoted text a statement is over, or a closing parenthesis ends it. -/
def Closes (after rest : Text) : Prop :=
  rest = after ∨ after.dropWhile Text.isBlank = ')' :: rest

theorem Closes.length_le {after rest : Text} (h : Closes after rest) :
    rest.length ≤ after.length := by
  rcases h with rfl | h
  · exact le_rfl
  · have hlength := (List.dropWhile_suffix Text.isBlank (l := after)).length_le
    rw [h, List.length_cons] at hlength
    omega

theorem firstQuoted?_of_afterBlank? {t : Text} {found : Text × Text}
    (h : afterBlank? t = some found) : firstQuoted? t = some found := by
  rw [← firstQuoted?_dropWhile (fun _ => isQuote_of_isBlank) t]
  exact firstQuoted?_of_quoted? h

theorem firstQuoted?_of_afterType? {t : Text} {found : Text × Text}
    (h : afterType? t = some found) : firstQuoted? t = some found := by
  unfold afterType? at h
  split at h
  · next c rest htype =>
    split at h
    · next hblank =>
      rw [← firstQuoted?_dropWhile (fun _ => isQuote_of_isBlank) t, Text.eq_append_of_after? htype,
        firstQuoted?_append (by decide : QuoteFree "type".toList),
        firstQuoted?_cons (isQuote_of_isBlank hblank)]
      exact firstQuoted?_of_afterBlank? h
    · cases h
  · cases h

theorem firstQuoted?_of_afterFrom? {t : Text} {found : Text × Text}
    (h : afterFrom? t = some found) : firstQuoted? t = some found := by
  unfold afterFrom? at h
  split at h
  · rw [← firstQuoted?_dropWhile (fun _ => isQuote_of_isClauseChar) t]
    exact firstQuoted?_of_quoted? h
  · cases h

theorem firstQuoted?_of_afterClause? {t : Text} {found : Text × Text}
    (h : afterClause? false t = some found) : firstQuoted? t = some found := by
  unfold afterClause? at h
  split at h
  · next hblank =>
    cases h
    exact firstQuoted?_of_afterBlank? hblank
  · split at h
    · next htype =>
      cases h
      exact firstQuoted?_of_afterType? htype
    · exact firstQuoted?_of_afterFrom? h

theorem firstQuoted?_of_inParentheses? {t inner rest : Text}
    (h : inParentheses? t = some (inner, rest)) :
    ∃ after, firstQuoted? t = some (inner, after) ∧ Closes after rest := by
  unfold inParentheses? at h
  split at h
  · next behind hopen =>
    split at h
    · next hquoted =>
      split at h
      · next hclose =>
        cases h
        refine ⟨_, ?_, .inr hclose⟩
        rw [← firstQuoted?_dropWhile (fun _ => isQuote_of_isBlank) t, hopen,
          firstQuoted?_cons (by decide),
          ← firstQuoted?_dropWhile (fun _ => isQuote_of_isBlank) behind]
        exact firstQuoted?_of_quoted? hquoted
      · cases h
    · cases h
  · cases h

/-- A statement takes the first quoted text, whatever its form. -/
theorem statement?_sound {t inner rest : Text} (h : statement? false t = some (inner, rest)) :
    ∃ after, firstQuoted? t = some (inner, after) ∧ Closes after rest := by
  have word {w r : Text} (hw : QuoteFree w) (ht : Text.after? w t = some r) :
      firstQuoted? t = firstQuoted? r := by
    rw [Text.eq_append_of_after? ht, firstQuoted?_append hw]
  unfold statement? at h
  split at h
  · next r himport =>
    rw [word (by decide : QuoteFree "import".toList) himport]
    rcases Option.or_eq_some_iff.1 h with hclause | ⟨-, hparen⟩
    · exact ⟨rest, firstQuoted?_of_afterClause? hclause, .inl rfl⟩
    · exact firstQuoted?_of_inParentheses? hparen
  · split at h
    · next r hexport =>
      rw [word (by decide : QuoteFree "export".toList) hexport]
      exact ⟨rest, firstQuoted?_of_afterClause? h, .inl rfl⟩
    · obtain ⟨r, hrequire, hparen⟩ := Option.bind_eq_some_iff.1 h
      rw [word (by decide : QuoteFree "require".toList) hrequire]
      exact firstQuoted?_of_inParentheses? hparen

/-! ## Rounds of the scan -/

/-- What a round of the scan takes from the text, where `free` tells whether a keyword may start
here. -/
def next? (free : Bool) (t : Text) : Option (Text × Text) :=
  if free then statement? false t else none

theorem next?_sound {free : Bool} {t inner rest : Text} (h : next? free t = some (inner, rest)) :
    ∃ after, firstQuoted? t = some (inner, after) ∧ Closes after rest :=
  statement?_sound (Option.ite_none_right_eq_some.1 h).2

/-- The scan goes on behind a statement that it takes, and else behind a character. -/
@[elab_as_elim]
theorem scan_induction {motive : Bool → Text → Prop} (nil : ∀ free, motive free [])
    (take : ∀ free c t inner rest, next? free (c :: t) = some (inner, rest) →
      (∀ d ∈ inner, isQuotable d = true) → rest.length ≤ t.length → motive false rest →
      motive free (c :: t))
    (pass : ∀ free c t, next? free (c :: t) = none → motive (!continuesName c) t →
      motive free (c :: t))
    (free : Bool) (t : Text) : motive free t := by
  -- What is left behind a statement is no part of the data, only shorter.
  induction hn : t.length using Nat.strong_induction_on generalizing free t with
  | _ n ih =>
    cases t with
    | nil => exact nil free
    | cons c t =>
      subst hn
      cases hs : next? free (c :: t) with
      | none => exact pass free c t hs (ih t.length (Nat.lt_succ_self _) _ t rfl)
      | some found =>
        obtain ⟨inner, rest⟩ := found
        obtain ⟨after, hafter, hclose⟩ := next?_sound hs
        obtain ⟨-, hinner, hshort⟩ := exists_of_firstQuoted? hafter
        have hrest : rest.length < (c :: t).length := hclose.length_le.trans_lt hshort
        exact take free c t inner rest hs hinner (Nat.le_of_lt_succ hrest)
          (ih rest.length hrest false rest rfl)

/-- The quoted texts of the statements in the text, where `free` tells whether a keyword may start
here. -/
def statementsFrom (free : Bool) (t : Text) : List Text :=
  scanFrom t free false [] t

theorem statementsFrom_nil (free : Bool) : statementsFrom free [] = [] := by
  simp [statementsFrom, scanFrom]

/-- A bound no shorter than the text makes no difference, and what was found before stands first. -/
theorem scanFrom_eq_append (free : Bool) (t : Text) :
    ∀ (bound : Text) (found : List Text), t.length ≤ bound.length →
      scanFrom bound free false found t = found.reverse ++ statementsFrom free t := by
  induction free, t using scan_induction with
  | nil free => simp [statementsFrom, scanFrom]
  | take free c t inner rest hs _ hrest ih =>
    intro bound found hbound
    cases bound with
    | nil => cases hbound
    | cons b bound =>
      have hlong : rest.length ≤ bound.length := hrest.trans (Nat.le_of_succ_le_succ hbound)
      rw [next?] at hs
      rw [statementsFrom, scanFrom_cons, scanFrom_cons, hs]
      dsimp only
      rw [ih bound _ hlong, ih t _ hrest]
      simp
  | pass free c t hs ih =>
    intro bound found hbound
    cases bound with
    | nil => cases hbound
    | cons b bound =>
      rw [next?] at hs
      rw [statementsFrom, scanFrom_cons, scanFrom_cons, hs]
      dsimp only
      rw [ih bound _ (Nat.le_of_succ_le_succ hbound), ih t _ le_rfl]
      simp

theorem statementsFrom_of_take {free : Bool} {c : Char} {t inner rest : Text}
    (hs : next? free (c :: t) = some (inner, rest)) :
    statementsFrom free (c :: t) = inner :: statementsFrom false rest := by
  obtain ⟨after, hafter, hclose⟩ := next?_sound hs
  have hrest : rest.length < (c :: t).length :=
    hclose.length_le.trans_lt (exists_of_firstQuoted? hafter).2.2
  rw [next?] at hs
  rw [statementsFrom, scanFrom_cons, hs]
  exact scanFrom_eq_append false rest t [inner] (Nat.le_of_lt_succ hrest)

theorem statementsFrom_of_pass {free : Bool} {c : Char} {t : Text}
    (hs : next? free (c :: t) = none) :
    statementsFrom free (c :: t) = statementsFrom (!continuesName c) t := by
  rw [next?] at hs
  rw [statementsFrom, scanFrom_cons, hs]
  exact scanFrom_eq_append _ t t [] le_rfl

/-! ## What the scan finds -/

/-- What the scan finds are quoted texts. -/
theorem quotable_of_mem_statementsFrom {free : Bool} {t s : Text} (h : s ∈ statementsFrom free t) :
    ∀ c ∈ s, isQuotable c = true := by
  induction free, t using scan_induction with
  | nil free =>
    rw [statementsFrom_nil] at h
    cases h
  | take free c t inner rest hs hinner _ ih =>
    rw [statementsFrom_of_take hs] at h
    rcases List.mem_cons.1 h with rfl | h
    · exact hinner
    · exact ih h
  | pass free c t hs ih =>
    rw [statementsFrom_of_pass hs] at h
    exact ih h

/-- In a text without quotation marks there is nothing to find. -/
theorem statementsFrom_of_quoteFree {t : Text} (h : QuoteFree t) (free : Bool) :
    statementsFrom free t = [] := by
  induction t generalizing free with
  | nil => exact statementsFrom_nil free
  | cons c t ih =>
    have hnone : next? free (c :: t) = none := by
      rw [Option.eq_none_iff_forall_ne_some]
      rintro ⟨inner, rest⟩ hs
      obtain ⟨after, hafter, -⟩ := next?_sound hs
      rw [firstQuoted?_of_quoteFree h] at hafter
      cases hafter
    rw [statementsFrom_of_pass hnone]
    exact ih (List.forall_mem_cons.1 h).2 _

/-- What a round takes before the first quoted text is that quoted text. -/
theorem statementsFrom_of_isSome {free : Bool} {t inner after : Text}
    (hquoted : firstQuoted? t = some (inner, after)) (hs : (next? free t).isSome) :
    ∃ rest, Closes after rest ∧ statementsFrom free t = inner :: statementsFrom false rest := by
  obtain ⟨⟨taken, rest⟩, htaken⟩ := Option.isSome_iff_exists.1 hs
  obtain ⟨after', hafter, hclose⟩ := next?_sound htaken
  obtain ⟨rfl, rfl⟩ := Prod.mk.inj (Option.some.inj (hafter.symm.trans hquoted))
  cases t with
  | nil => cases hquoted
  | cons c t => exact ⟨rest, hclose, statementsFrom_of_take htaken⟩

/-- Whether a keyword may start behind the text, if `free` tells whether one may start before it. -/
def freeAfter (free : Bool) (t : Text) : Bool :=
  t.foldl (fun _ c => !continuesName c) free

/-- The quoted text of a statement is found behind a text without quotation marks: by the statement,
or by a keyword before it whose clause runs into the statement. -/
theorem statementsFrom_append {p t inner after : Text} {free : Bool} (hp : QuoteFree p)
    (hfree : freeAfter free p = true) (hs : (statement? false t).isSome)
    (hquoted : firstQuoted? t = some (inner, after)) :
    ∃ rest, Closes after rest ∧
      statementsFrom free (p ++ t) = inner :: statementsFrom false rest := by
  -- Whichever round is the first to take anything, it takes the first quoted text.
  induction p generalizing free with
  | nil =>
    obtain rfl : free = true := hfree
    exact statementsFrom_of_isSome hquoted hs
  | cons c p ih =>
    cases hc : next? free (c :: (p ++ t)) with
    | some found =>
      refine statementsFrom_of_isSome ?_ (Option.isSome_iff_exists.2 ⟨found, hc⟩)
      rw [← hquoted]
      exact firstQuoted?_append hp
    | none =>
      rw [List.cons_append, statementsFrom_of_pass hc]
      exact ih (List.forall_mem_cons.1 hp).2 hfree

end Specifier

end SourceClosure
