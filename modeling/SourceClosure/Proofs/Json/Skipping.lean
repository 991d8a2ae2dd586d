import SourceClosure.Json.Skip
import SourceClosure.Proofs.Json.Reading

/-!
# Skipping goes by tokens

A value that is passed over takes the same tokens whatever spacing there is between them. The
brackets that are open are kept in a list, so the proof goes by the number of tokens that are left,
not by the nesting of values.
-/

namespace SourceClosure

namespace Json

/-! ## Scalars and names -/

theorem skipScalar_number {digits r : Text} (h : IsNumber digits) :
    skipScalar (digits ++ r) = (Numeral.read .malformed (digits ++ r)).map Prod.snd := by
  rw [Token.number_append h]
  exact Token.dispatch_number h _ _ _ _ _ _

/-- A token is passed over, or it is none that a scalar may have. -/
theorem skipScalar_cases (a : Token) (ts : List Token)
    (hchain : (a :: ts).IsChain Token.Precedes) :
    (∀ r, skipScalar (a.mark :: (a.text.tail ++ r)) = .error .malformed) ∨
      ∀ r, Spaced ts r → skipScalar (a.mark :: (a.text.tail ++ r)) = .ok r := by
  cases a with
  | opening b => exact .inl (fun r => by cases b <;> rfl)
  | closing b => exact .inl (fun r => by cases b <;> rfl)
  | comma => exact .inl (fun r => rfl)
  | colon => exact .inl (fun r => rfl)
  | null => exact .inr (fun r _ => by simp [skipScalar, Token.mark, Token.text, expectWord])
  | bool b =>
    refine .inr (fun r _ => ?_)
    cases b <;> simp [skipScalar, Token.mark, Token.text, expectWord]
  | string body h =>
    exact .inr (fun r _ => by
      simp [skipScalar, Token.mark, Token.text, skipQuoted_of_isQuoted h])
  | number digits h =>
    obtain ⟨n, hn⟩ := Numeral.exists_read h
    refine .inr (fun r hr => ?_)
    rw [← Token.text_append]
    exact (skipScalar_number h).trans (by rw [hn .malformed r (hr.stops hchain rfl)]; rfl)

theorem decided_skipItemStart (b : Bracket) (ts : List Token) :
    Decided (fun _ => passing (skipItemStart b)) ts 0 := by
  cases b with
  | list => exact .pure ()
  | object =>
    cases ts with
    | nil => exact .ended (fun _ t ht => by simp [passing, skipItemStart, skipName, ht, Except.map])
    | cons a ts =>
      by_cases ha : ∃ body h, a = .string body h
      · obtain ⟨body, hbody, rfl⟩ := ha
        refine ((decided_expectColon ts).after (fun bound t r hbound _ ht =>
          ⟨bound, hbound.le, ?_⟩)).mono (Nat.zero_le _)
        simp [passing, skipItemStart, skipName, ht, Token.mark, Token.text,
          skipQuoted_of_isQuoted hbody, Bind.bind, Except.bind]
      · have hmark : a.mark ≠ '"' := mt Token.mark_eq_quote_iff.1 ha
        exact .refuse .malformed (fun _ t r ht => by
          simp [passing, skipItemStart, skipName, ht, hmark, Except.map])

/-! ## Brackets -/

/-- How many tokens are taken at least. -/
def Expecting.least : Expecting → Nat
  | .value => 1
  | .rest => 0

/-- What a value that starts with a bracket comes down to. -/
theorem exists_skipFrom_opening {b : Bracket} {ts : List Token} {t : Text}
    (ht : Spaced (.opening b :: ts) t) (d : Char) (bound : Text) (opened : List Bracket) :
    ∃ r, Spaced ts r ∧ skipFrom (d :: bound) .value opened t =
      match skipSpace r with
      | [] => .error .ended
      | c :: rest =>
        if c = b.closing then skipFrom bound .rest opened rest
        else skipItemStart b (c :: rest) >>= skipFrom bound .value (b :: opened) := by
  obtain ⟨r, hr, hskip⟩ := ht.skipSpace_cons
  refine ⟨r, hr, ?_⟩
  cases hr : skipSpace r with
  | nil => cases b <;> simp [skipFrom, hskip, Token.mark, Token.text, Bracket.opening, hr]
  | cons c rest =>
    cases hs : skipItemStart b (c :: rest) <;> cases b <;>
      simp [skipFrom, hskip, Token.mark, Token.text, Bracket.opening, hr, hs, Bind.bind,
        Except.bind]

/-- What a value that starts with no bracket comes down to. -/
theorem skipFrom_scalar {a : Token} (ha : ¬ ∃ b, a = .opening b) {t r : Text}
    (ht : skipSpace t = a.mark :: (a.text.tail ++ r)) (d : Char) (bound : Text)
    (opened : List Bracket) :
    skipFrom (d :: bound) .value opened t =
      skipScalar (a.mark :: (a.text.tail ++ r)) >>= skipFrom bound .rest opened := by
  have hlist : a.mark ≠ '[' := fun h => ha ⟨.list, (Token.mark_eq_opening_iff (b := .list)).1 h⟩
  have hobject : a.mark ≠ '\x7b' := fun h =>
    ha ⟨.object, (Token.mark_eq_opening_iff (b := .object)).1 h⟩
  cases hs : skipScalar (a.mark :: (a.text.tail ++ r)) <;>
    simp [skipFrom, ht, hlist, hobject, hs, Bind.bind, Except.bind]

/-- What the rest behind an item comes down to. -/
theorem skipFrom_rest {c : Char} {t r : Text} (ht : skipSpace t = c :: r) (d : Char)
    (bound : Text) (b : Bracket) (opened : List Bracket) :
    skipFrom (d :: bound) .rest (b :: opened) t =
      if c = b.closing then skipFrom bound .rest opened r
      else if c = ',' then skipItemStart b r >>= skipFrom bound .value (b :: opened)
      else .error .malformed := by
  cases hs : skipItemStart b r <;> simp [skipFrom, ht, hs, Bind.bind, Except.bind]

theorem passing_bind (skip : Text → Except Fault Text) (next : Text → Except Fault Text) :
    passing (fun t => skip t >>= next) = passing skip >>= fun _ => passing next := by
  funext t
  simp only [passing, Bind.bind, StateT.bind]
  cases skip t <;> rfl

/-! ### One round

What a round comes to on a row of tokens, if going on behind a value comes to something on what is
left (`hrest`), and so does the start of an item and the value in it (`hitem`). -/

/-- Where nothing is left, only the end may be expected. -/
theorem decided_skipFrom_nil (expecting : Expecting) (opened : List Bracket) :
    Decided (fun bound => passing (skipFrom bound expecting opened)) [] expecting.least := by
  cases expecting with
  | value =>
    refine .ended (fun bound t ht => ?_)
    cases bound <;> simp [passing, skipFrom, ht, Except.map]
  | rest =>
    cases opened with
    | nil =>
      refine .reads () [] (List.suffix_refl []) le_rfl (fun bound t _ ht => ⟨t, ht, ?_⟩)
      cases bound <;> rfl
    | cons b opened =>
      refine .ended (fun bound t ht => ?_)
      cases bound <;> simp [passing, skipFrom, ht, Except.map]

section Round

variable {a : Token} {ts : List Token}
  (hrest : ∀ us, us <:+ ts → ∀ opened,
    Decided (fun bound => passing (skipFrom bound .rest opened)) us 0)
  (hitem : ∀ b opened, Decided (fun bound => passing (fun t =>
    skipItemStart b t >>= skipFrom bound .value (b :: opened))) ts 0)

include hrest hitem

/-- Behind a value in brackets stands a closing bracket, or a comma with another item. -/
theorem decided_skipFrom_rest (a : Token) (opened : List Bracket) :
    Decided (fun bound => passing (skipFrom bound .rest opened)) (a :: ts) 0 := by
  cases opened with
  | nil =>
    refine .reads () (a :: ts) (List.suffix_refl _) le_rfl (fun bound t _ ht => ⟨t, ht, ?_⟩)
    cases bound <;> rfl
  | cons b opened =>
    by_cases ha : a = .closing b
    · subst ha
      refine ((hrest ts (List.suffix_refl ts) opened).after
        (fun bound t r hbound _ ht => ?_)).mono (Nat.zero_le _)
      obtain ⟨d, bound, rfl, hbound'⟩ := exists_bound_of_le hbound
      have hskip : skipSpace t = b.closing :: r := ht
      refine ⟨bound, hbound', ?_⟩
      rw [passing, skipFrom_rest hskip, if_pos rfl]
      rfl
    have hclosing : a.mark ≠ b.closing := mt Token.mark_eq_closing_iff.1 ha
    by_cases hcomma : a = .comma
    · subst hcomma
      refine ((hitem b opened).after (fun bound t r hbound _ ht => ?_)).mono (Nat.zero_le _)
      obtain ⟨d, bound, rfl, hbound'⟩ := exists_bound_of_le hbound
      have hskip : skipSpace t = ',' :: r := ht
      refine ⟨bound, hbound', ?_⟩
      have hne : ',' ≠ b.closing := hclosing
      rw [passing, skipFrom_rest hskip, if_neg hne, if_pos rfl]
      rfl
    · have hmark : a.mark ≠ ',' := mt Token.mark_eq_comma_iff.1 hcomma
      refine .fails .malformed (fun bound t hbound ht => ?_)
      obtain ⟨r, -, hskip⟩ := ht.skipSpace_cons
      obtain ⟨d, bound, rfl, -⟩ := exists_bound_of_le hbound
      rw [passing, skipFrom_rest hskip, if_neg hclosing, if_neg hmark]
      rfl

/-- Behind an opening bracket stands the closing one, or an item. -/
theorem decided_skipFrom_opening (b : Bracket) (opened : List Bracket) :
    Decided (fun bound => passing (skipFrom bound .value opened)) (.opening b :: ts)
      Expecting.value.least := by
  cases ts with
  | nil =>
    refine .fails .ended (fun bound t hbound ht => ?_)
    obtain ⟨d, bound, rfl, -⟩ := exists_bound_of_le hbound
    obtain ⟨r, hr, hrun⟩ := exists_skipFrom_opening ht d bound opened
    rw [passing, hrun, hr.skipSpace_nil]
    rfl
  | cons c us =>
    have hus : us <:+ c :: us := List.suffix_cons c us
    by_cases hc : c = .closing b
    · subst hc
      refine (hrest us hus opened).of_run (hus.trans (List.suffix_cons _ _))
        (by simp [Expecting.least]) (fun bound t hbound ht => ?_)
      obtain ⟨d, bound, rfl, hbound'⟩ := exists_bound_of_le hbound
      obtain ⟨r, hr, hrun⟩ := exists_skipFrom_opening ht d bound opened
      obtain ⟨r', hr', hskip⟩ := hr.skipSpace_cons
      refine ⟨bound, r', Nat.le_of_succ_le hbound', hr', ?_⟩
      rw [passing, hrun, hskip]
      simp [passing, Token.mark, Token.text]
    · have hclosing : c.mark ≠ b.closing := mt Token.mark_eq_closing_iff.1 hc
      refine (hitem b opened).of_run (List.suffix_cons _ _) le_rfl (fun bound t hbound ht => ?_)
      obtain ⟨d, bound, rfl, hbound'⟩ := exists_bound_of_le hbound
      obtain ⟨r, hr, hrun⟩ := exists_skipFrom_opening ht d bound opened
      obtain ⟨r', hr', hskip⟩ := hr.skipSpace_cons
      refine ⟨bound, _, hbound', hr'.cons c, ?_⟩
      rw [passing, hrun, hskip]
      simp [passing, hclosing]

omit hitem

/-- What is no opening bracket must be a scalar. -/
theorem decided_skipFrom_scalar (hchain : (a :: ts).IsChain Token.Precedes)
    (ha : ¬ ∃ b, a = .opening b) (opened : List Bracket) :
    Decided (fun bound => passing (skipFrom bound .value opened)) (a :: ts)
      Expecting.value.least := by
  rcases skipScalar_cases a ts hchain with hfails | hreads
  · refine .fails .malformed (fun bound t hbound ht => ?_)
    obtain ⟨d, bound, rfl, -⟩ := exists_bound_of_le hbound
    obtain ⟨r, -, hskip⟩ := ht.skipSpace_cons
    rw [passing, skipFrom_scalar ha hskip, hfails]
    rfl
  · refine (hrest ts (List.suffix_refl ts) opened).after (fun bound t r hbound hr ht => ?_)
    obtain ⟨d, bound, rfl, hbound'⟩ := exists_bound_of_le hbound
    refine ⟨bound, hbound', ?_⟩
    rw [passing, skipFrom_scalar ha ht, hreads r hr]
    rfl

end Round

theorem decided_skipFrom {ts : List Token} (hchain : ts.IsChain Token.Precedes)
    (expecting : Expecting) (opened : List Bracket) :
    Decided (fun bound => passing (skipFrom bound expecting opened)) ts expecting.least := by
  induction hn : ts.length using Nat.strong_induction_on generalizing ts expecting opened with
  | _ n ih =>
    subst hn
    cases ts with
    | nil => exact decided_skipFrom_nil expecting opened
    | cons a ts =>
      have hdecided (expecting : Expecting) (us : List Token) (hus : us <:+ ts)
          (opened : List Bracket) :
          Decided (fun bound => passing (skipFrom bound expecting opened)) us expecting.least :=
        ih us.length (Nat.lt_succ_of_le hus.length_le)
          (isChain_of_suffix hchain (hus.trans (List.suffix_cons a ts))) expecting opened rfl
      have hrest := hdecided .rest
      have hitem (b : Bracket) (opened : List Bracket) : Decided (fun bound => passing (fun t =>
          skipItemStart b t >>= skipFrom bound .value (b :: opened))) ts 0 := by
        simp only [passing_bind]
        refine (decided_skipItemStart b ts).bind (fun _ us hus => ?_)
        exact (hdecided .value us hus (b :: opened)).mono (Nat.zero_le _)
      cases expecting with
      | rest => exact decided_skipFrom_rest hrest hitem a opened
      | value =>
        by_cases ha : ∃ b, a = .opening b
        · obtain ⟨b, rfl⟩ := ha
          exact decided_skipFrom_opening hrest hitem b opened
        · exact decided_skipFrom_scalar hrest hchain ha opened

theorem steady_skipValue : Steady skipValue := by
  intro ts hchain
  exact (decided_skipFrom hchain .value []).self

end Json

end SourceClosure
