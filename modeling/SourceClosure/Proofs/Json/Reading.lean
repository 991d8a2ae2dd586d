import SourceClosure.Json.Value
import SourceClosure.Proofs.Json.Scalar

/-!
# Readers go by tokens

Whatever spacing a text has between its tokens, a reader answers the same: it finds the same fault,
or it reads the same value and leaves the same tokens (`Decided`). This holds of every reader that
takes whole tokens, and it is kept by the ways in which readers are put together, so it is proved
once for each of the small readers and once for each way of combining them.
-/

namespace SourceClosure

namespace Json

/-- What comes of `run` on a text of these tokens is decided by the tokens. At least `n` of them are
taken if a value is read. The bound on the number of rounds may be any text that is no shorter than
the row of tokens. -/
inductive Decided {α : Type} (run : Text → Reader α) (ts : List Token) (n : Nat) : Prop where
  | fails (fault : Fault)
      (h : ∀ bound t, ts.length ≤ bound.length → Spaced ts t → run bound t = .error fault)
  | reads (a : α) (rest : List Token) (suffix : rest <:+ ts) (length : rest.length + n ≤ ts.length)
      (h : ∀ bound t, ts.length ≤ bound.length → Spaced ts t →
        ∃ r, Spaced rest r ∧ run bound t = .ok (a, r))

/-- Whatever strict tokens a text has, the reader goes by them, and takes at least one if it reads a
value. -/
def Steady {α : Type} (reader : Reader α) : Prop :=
  ∀ ts : List Token, ts.IsChain Token.Precedes → Decided (fun _ => reader) ts 1

namespace Decided

variable {α β : Type} {ts : List Token} {n m : Nat}

theorem pure (a : α) : Decided (fun _ => (Pure.pure a : Reader α)) ts 0 :=
  .reads a ts (List.suffix_refl ts) le_rfl (fun _ t _ ht => ⟨t, ht, rfl⟩)

theorem throw (fault : Fault) : Decided (fun _ => (MonadExcept.throw fault : Reader α)) ts n :=
  .fails fault (fun _ _ _ _ => rfl)

theorem mono {run : Text → Reader α} (h : Decided run ts n) (hle : m ≤ n) : Decided run ts m := by
  cases h with
  | fails fault h => exact .fails fault h
  | reads a rest hsuffix hlength h => exact .reads a rest hsuffix (by omega) h

/-- The bound may be the text itself. -/
theorem self {run : Text → Reader α} (h : Decided run ts n) :
    Decided (fun _ t => run t t) ts n := by
  cases h with
  | fails fault h => exact .fails fault (fun _ t _ ht => h t t ht.length_le ht)
  | reads a rest hsuffix hlength h =>
    exact .reads a rest hsuffix hlength (fun _ t _ ht => h t t ht.length_le ht)

theorem bind {run : Text → Reader α} {next : α → Text → Reader β} (h : Decided run ts n)
    (hnext : ∀ a rest, rest <:+ ts → Decided (next a) rest 0) :
    Decided (fun bound => run bound >>= fun a => next a bound) ts n := by
  cases h with
  | fails fault h =>
    refine .fails fault (fun bound t hbound ht => ?_)
    simp [Bind.bind, StateT.bind, h bound t hbound ht, Except.bind]
  | reads a rest hsuffix hlength h =>
    cases hnext a rest hsuffix with
    | fails fault hf =>
      refine .fails fault (fun bound t hbound ht => ?_)
      obtain ⟨r, hr, hrun⟩ := h bound t hbound ht
      have hfault := hf bound r (by omega) hr
      simp [Bind.bind, StateT.bind, hrun, Except.bind, hfault]
    | reads b rest' hsuffix' hlength' hn =>
      refine .reads b rest' (hsuffix'.trans hsuffix) (by omega) (fun bound t hbound ht => ?_)
      obtain ⟨r, hr, hrun⟩ := h bound t hbound ht
      obtain ⟨r', hr', hnext⟩ := hn bound r (by omega) hr
      exact ⟨r', hr', by simp [Bind.bind, StateT.bind, hrun, Except.bind, hnext]⟩

theorem map {run : Text → Reader α} (h : Decided run ts n) (f : α → β) :
    Decided (fun bound => f <$> run bound) ts n := by
  cases h with
  | fails fault h =>
    refine .fails fault (fun bound t hbound ht => ?_)
    simp [Functor.map, StateT.map, h bound t hbound ht, Bind.bind, Except.bind]
  | reads a rest hsuffix hlength h =>
    refine .reads (f a) rest hsuffix hlength (fun bound t hbound ht => ?_)
    obtain ⟨r, hr, hrun⟩ := h bound t hbound ht
    exact ⟨r, hr, by simp [Functor.map, StateT.map, hrun, Bind.bind, Except.bind, Pure.pure,
      Except.pure]⟩

/-- A run goes by tokens if it comes down to one that goes by the last of them. -/
theorem of_run {run run' : Text → Reader α} {us : List Token} (h : Decided run' us m)
    (hsuffix : us <:+ ts) (hlength : us.length + n ≤ ts.length + m)
    (heq : ∀ bound t, ts.length ≤ bound.length → Spaced ts t →
      ∃ bound' t', us.length ≤ bound'.length ∧ Spaced us t' ∧ run bound t = run' bound' t') :
    Decided run ts n := by
  cases h with
  | fails fault h =>
    refine .fails fault (fun bound t hbound ht => ?_)
    obtain ⟨bound', t', hbound', ht', hrun⟩ := heq bound t hbound ht
    rw [hrun, h bound' t' hbound' ht']
  | reads a rest hrest hlength' h =>
    refine .reads a rest (hrest.trans hsuffix) (by omega) (fun bound t hbound ht => ?_)
    obtain ⟨bound', t', hbound', ht', hrun⟩ := heq bound t hbound ht
    rw [hrun]
    exact h bound' t' hbound' ht'

/-- A run that takes the first token goes on behind it. -/
theorem after {run run' : Text → Reader α} {a : Token} (h : Decided run' ts n)
    (heq : ∀ bound t r, ts.length < bound.length → Spaced ts r →
      skipSpace t = a.mark :: (a.text.tail ++ r) →
        ∃ bound', ts.length ≤ bound'.length ∧ run bound t = run' bound' r) :
    Decided run (a :: ts) (n + 1) := by
  refine h.of_run (List.suffix_cons a ts) (by simp only [List.length_cons]; omega) ?_
  intro bound t hbound ht
  obtain ⟨r, hr, hskip⟩ := ht.skipSpace_cons
  obtain ⟨bound', hbound', hrun⟩ := heq bound t r hbound hr hskip
  exact ⟨bound', r, hbound', hr, hrun⟩

/-- A run that reads the first token and nothing else. -/
theorem take {run : Text → Reader α} {a : Token} (x : α)
    (h : ∀ bound t r, Spaced ts r → skipSpace t = a.mark :: (a.text.tail ++ r) →
      run bound t = .ok (x, r)) : Decided run (a :: ts) 1 :=
  (Decided.pure x).after (fun bound t r hbound hr ht => ⟨bound, hbound.le, h bound t r hr ht⟩)

/-- A run that fails at the first token. -/
theorem refuse {run : Text → Reader α} {a : Token} (fault : Fault)
    (h : ∀ bound t r, skipSpace t = a.mark :: (a.text.tail ++ r) → run bound t = .error fault) :
    Decided run (a :: ts) n := by
  refine .fails fault (fun bound t _ ht => ?_)
  obtain ⟨r, -, hskip⟩ := ht.skipSpace_cons
  exact h bound t r hskip

/-- A run that needs a token fails where there is none. -/
theorem ended {run : Text → Reader α}
    (h : ∀ bound t, skipSpace t = [] → run bound t = .error .ended) : Decided run [] n :=
  .fails .ended (fun bound t _ ht => h bound t ht.skipSpace_nil)

end Decided

/-! ## Heads -/

/-- What stands behind a number does not continue it. -/
theorem Spaced.stops {a : Token} {ts : List Token} (hchain : (a :: ts).IsChain Token.Precedes)
    (ha : a.isNumeric = true) {r : Text} (h : Spaced ts r) : Stops r := by
  have hspace (c : Char) (hc : isSpace c = true) :
      c.isDigit = false ∧ c ≠ '.' ∧ c ≠ 'e' ∧ c ≠ 'E' := by
    simp only [isSpace, Bool.or_eq_true, beq_iff_eq] at hc
    rcases hc with ((rfl | rfl) | rfl) | rfl <;> decide
  cases ts with
  | nil => exact fun c hc => hspace c (layout_nil_iff.1 h c (List.mem_of_mem_head? hc))
  | cons b ts =>
    have hb := ((List.isChain_cons_cons.1 hchain).1.number ha)
    obtain ⟨g, r, hg, -, rfl⟩ := layout_cons_iff.1 h
    intro c hc
    cases g with
    | cons d g =>
      cases hc
      exact hspace c (hg c List.mem_cons_self)
    | nil =>
      rw [List.nil_append, b.text_eq_cons] at hc
      cases hc
      cases b with
      | opening b => cases b <;> decide
      | closing b => cases b <;> decide
      | comma => decide
      | colon => decide
      | null => decide
      | bool b => cases b <;> decide
      | string body h => simp [Token.mark, Token.text]
      | number digits h => cases hb

theorem readHead_number {digits t r : Text} (h : IsNumber digits)
    (ht : skipSpace t = digits ++ r) : readHead t = readNumber (digits ++ r) := by
  unfold readHead
  rw [ht, Token.number_append h]
  exact Token.dispatch_number h _ _ _ _ _ _

/-- A number is read as a whole, and fails if it is too large. -/
theorem decided_readHead_number {digits : Text} (h : IsNumber digits) {ts : List Token}
    (hchain : (Token.number digits h :: ts).IsChain Token.Precedes) :
    Decided (fun _ => readHead) (.number digits h :: ts) 1 := by
  obtain ⟨n, hn⟩ := Numeral.exists_read h
  have hread {t r : Text} (hr : Spaced ts r)
      (ht : skipSpace t = (Token.number digits h).mark ::
        ((Token.number digits h).text.tail ++ r)) :
      readHead t = if n.overflows then .error .malformed else .ok (.scalar (.number n), r) := by
    rw [← Token.text_append] at ht
    rw [readHead_number h ht, readNumber, hn .ended r (hr.stops hchain rfl)]
    cases hover : n.overflows <;> simp [Bind.bind, Except.bind, hover] <;> rfl
  cases hover : n.overflows with
  | true =>
    refine .fails .malformed (fun _ t _ ht => ?_)
    obtain ⟨r, hr, hskip⟩ := ht.skipSpace_cons
    rw [hread hr hskip, hover, if_pos rfl]
  | false =>
    refine .take (.scalar (.number n)) (fun _ t r hr ht => ?_)
    rw [hread hr ht, hover, if_neg Bool.false_ne_true]

theorem steady_readHead : Steady readHead := by
  intro ts hchain
  cases ts with
  | nil => exact .ended (fun _ t ht => by simp [readHead, ht])
  | cons a ts =>
    cases a with
    | opening b =>
      cases b with
      | list => exact .take .list (fun _ t r _ ht => by
          simp [readHead, ht, Token.mark, Token.text, Bracket.opening])
      | object => exact .take .object (fun _ t r _ ht => by
          simp [readHead, ht, Token.mark, Token.text, Bracket.opening])
    | closing b =>
      refine .refuse .malformed (fun _ t r ht => ?_)
      cases b <;> simp [readHead, ht, Token.mark, Token.text, Bracket.closing]
    | comma => exact .refuse .malformed (fun _ t r ht => by
        simp [readHead, ht, Token.mark, Token.text])
    | colon => exact .refuse .malformed (fun _ t r ht => by
        simp [readHead, ht, Token.mark, Token.text])
    | null => exact .take (.scalar .null) (fun _ t r _ ht => by
        simp [readHead, ht, Token.mark, Token.text, expectWord, Except.map])
    | bool b =>
      refine .take (.scalar (.bool b)) (fun _ t r _ ht => ?_)
      cases b <;> simp [readHead, ht, Token.mark, Token.text, expectWord, Except.map]
    | string body h =>
      rcases readQuoted_cases h with ⟨fault, hfault⟩ | ⟨s, hs⟩
      · exact .refuse fault (fun _ t r ht => by
          simp [readHead, ht, Token.mark, Token.text, hfault, Except.map])
      · exact .take (.scalar (.string s)) (fun _ t r _ ht => by
          simp [readHead, ht, Token.mark, Token.text, hs, Except.map])
    | number digits h => exact decided_readHead_number h hchain

theorem isChain_of_suffix {ts rest : List Token} (h : ts.IsChain Token.Precedes)
    (hsuffix : rest <:+ ts) : rest.IsChain Token.Precedes :=
  List.IsChain.infix h hsuffix.isInfix

/-- The reader of nothing that passes over a part of the text. -/
def passing (skip : Text → Except Fault Text) : Reader Unit := fun t =>
  (skip t).map ((), ·)

theorem decided_expectColon (ts : List Token) : Decided (fun _ => passing expectColon) ts 1 := by
  cases ts with
  | nil => exact .ended (fun _ t ht => by simp [passing, expectColon, ht, Except.map])
  | cons a ts =>
    by_cases ha : a = .colon
    · subst ha
      exact .take () (fun _ t r _ ht => by
        simp [passing, expectColon, ht, Token.mark, Token.text, Except.map])
    · have hmark : a.mark ≠ ':' := mt Token.mark_eq_colon_iff.1 ha
      exact .refuse .malformed (fun _ t r ht => by
        simp [passing, expectColon, ht, hmark, Except.map])

theorem readMemberValue_eq {α : Type} (value : Reader α) :
    readMemberValue value = passing expectColon >>= fun _ => value := by
  funext t
  simp only [readMemberValue, passing, Bind.bind, StateT.bind]
  cases expectColon t <;> rfl

theorem steady_readMemberValue {α : Type} {value : Reader α} (h : Steady value) :
    Steady (readMemberValue value) := by
  intro ts hchain
  rw [readMemberValue_eq]
  refine (decided_expectColon ts).bind (fun _ rest hsuffix => ?_)
  exact (h rest (isChain_of_suffix hchain hsuffix)).mono (by omega)

/-! ## Lists and objects -/

/-- What comes next inside a list or object is decided by the tokens. What of an item is fixed
beforehand satisfies `isLead`. -/
inductive StepDecided (isLead : Text → Prop) (next : Text → Except Fault Step) (ts : List Token) :
    Prop where
  | fails (fault : Fault) (h : ∀ t, Spaced ts t → next t = .error fault)
  | item (lead : Text) (hlead : isLead lead) (rest : List Token) (suffix : rest <:+ ts)
      (h : ∀ t, Spaced ts t → ∃ r, Spaced rest r ∧ next t = .ok (.item (lead ++ r)))
  | close (rest : List Token) (suffix : rest <:+ ts)
      (h : ∀ t, Spaced ts t → ∃ r, Spaced rest r ∧ next t = .ok (.close r))

namespace StepDecided

variable {isLead : Text → Prop} {next next' : Text → Except Fault Step} {ts : List Token}

/-- A step that takes the first token goes on behind it. -/
theorem after {a : Token} (h : StepDecided isLead next' ts)
    (heq : ∀ t r, Spaced ts r → skipSpace t = a.mark :: (a.text.tail ++ r) → next t = next' r) :
    StepDecided isLead next (a :: ts) := by
  have hstep {t : Text} (ht : Spaced (a :: ts) t) : ∃ r, Spaced ts r ∧ next t = next' r := by
    obtain ⟨r, hr, hskip⟩ := ht.skipSpace_cons
    exact ⟨r, hr, heq t r hr hskip⟩
  cases h with
  | fails fault h =>
    refine .fails fault (fun t ht => ?_)
    obtain ⟨r, hr, hnext⟩ := hstep ht
    rw [hnext, h r hr]
  | item lead hlead rest hsuffix h =>
    refine .item lead hlead rest (hsuffix.trans (List.suffix_cons a ts)) (fun t ht => ?_)
    obtain ⟨r, hr, hnext⟩ := hstep ht
    rw [hnext]
    exact h r hr
  | close rest hsuffix h =>
    refine .close rest (hsuffix.trans (List.suffix_cons a ts)) (fun t ht => ?_)
    obtain ⟨r, hr, hnext⟩ := hstep ht
    rw [hnext]
    exact h r hr

theorem refuse {a : Token} (fault : Fault)
    (h : ∀ t r, skipSpace t = a.mark :: (a.text.tail ++ r) → next t = .error fault) :
    StepDecided isLead next (a :: ts) := by
  refine .fails fault (fun t ht => ?_)
  obtain ⟨r, -, hskip⟩ := ht.skipSpace_cons
  exact h t r hskip

theorem ended (h : ∀ t, skipSpace t = [] → next t = .error .ended) :
    StepDecided isLead next [] :=
  .fails .ended (fun t ht => h t ht.skipSpace_nil)

/-- The first token closes the list or object. -/
theorem closed {a : Token}
    (h : ∀ t r, skipSpace t = a.mark :: (a.text.tail ++ r) → next t = .ok (.close r)) :
    StepDecided isLead next (a :: ts) := by
  refine .close ts (List.suffix_cons a ts) (fun t ht => ?_)
  obtain ⟨r, hr, hskip⟩ := ht.skipSpace_cons
  exact ⟨r, hr, h t r hskip⟩

end StepDecided

/-- Of an item of a list nothing is fixed before it is read. -/
theorem stepDecided_nextItem (first : Bool) (ts : List Token) :
    StepDecided (· = []) (nextItem first) ts := by
  -- The item itself starts at the first token that is no closing bracket.
  have hitem {next : Text → Except Fault Step} (a : Token) (ts : List Token)
      (h : ∀ t r, skipSpace t = a.mark :: (a.text.tail ++ r) →
        next t = .ok (.item (a.mark :: (a.text.tail ++ r)))) :
      StepDecided (· = []) next (a :: ts) := by
    refine .item [] rfl (a :: ts) (List.suffix_refl _) (fun t ht => ?_)
    obtain ⟨r, hr, hskip⟩ := ht.skipSpace_cons
    exact ⟨_, hr.cons a, h t r hskip⟩
  have hclosing {a : Token} (ha : a ≠ .closing .list) : a.mark ≠ ']' :=
    mt (Token.mark_eq_closing_iff (b := .list)).1 ha
  cases ts with
  | nil => exact .ended (fun t ht => by simp [nextItem, ht])
  | cons a ts =>
    by_cases ha : a = .closing .list
    · subst ha
      exact .closed (fun t r ht => by
        simp [nextItem, ht, Token.mark, Token.text, Bracket.closing])
    cases first with
    | true => exact hitem a ts (fun t r ht => by simp [nextItem, ht, hclosing ha])
    | false =>
      by_cases hcomma : a = .comma
      · subst hcomma
        have hskip (t : Text) : skipSpace (',' :: t) = ',' :: t := rfl
        have hbehind : StepDecided (· = []) (fun t => nextItem false (',' :: t)) ts := by
          cases ts with
          | nil => exact .ended (fun t ht => by simp [nextItem, hskip, ht])
          | cons b ts =>
            by_cases hb : b = .closing .list
            · subst hb
              exact .refuse .malformed (fun t r ht => by
                simp [nextItem, hskip, ht, Token.mark, Token.text, Bracket.closing])
            · exact hitem b ts (fun t r ht => by simp [nextItem, hskip, ht, hclosing hb])
        refine hbehind.after (fun t r _ ht => ?_)
        have hcomma : skipSpace t = ',' :: r := ht
        simp only [nextItem, hskip, hcomma]
      · have hmark : a.mark ≠ ',' := mt Token.mark_eq_comma_iff.1 hcomma
        exact .refuse .malformed (fun t r ht => by simp [nextItem, ht, hclosing ha, hmark])

/-- What stands between quotation marks, with the closing one. -/
def IsName (t : Text) : Prop :=
  ∃ body, IsQuoted body ∧ t = body ++ ['"']

theorem stepDecided_openName {next : Text → Except Fault Step} {a : Token} (ts : List Token)
    (h : ∀ t, Spaced (a :: ts) t → next t = openName (skipSpace t)) :
    StepDecided IsName next (a :: ts) := by
  by_cases ha : ∃ body h, a = .string body h
  · obtain ⟨body, hbody, rfl⟩ := ha
    refine .item (body ++ ['"']) ⟨body, hbody, rfl⟩ ts (List.suffix_cons _ ts) (fun t ht => ?_)
    obtain ⟨r, hr, hskip⟩ := ht.skipSpace_cons
    exact ⟨r, hr, by simp [h t ht, hskip, openName, Token.mark, Token.text]⟩
  · have hmark : a.mark ≠ '"' := mt Token.mark_eq_quote_iff.1 ha
    refine .fails .malformed (fun t ht => ?_)
    obtain ⟨r, hr, hskip⟩ := ht.skipSpace_cons
    simp [h t ht, hskip, openName, hmark]

/-- Of a member of an object the opening quotation mark is read, so its name is fixed. -/
theorem stepDecided_nextMember (first : Bool) (ts : List Token) :
    StepDecided IsName (nextMember first) ts := by
  cases ts with
  | nil => exact .ended (fun t ht => by simp [nextMember, ht])
  | cons a ts =>
    by_cases ha : a = .closing .object
    · subst ha
      exact .closed (fun t r ht => by
        simp [nextMember, ht, Token.mark, Token.text, Bracket.closing])
    have hclosing : a.mark ≠ '}' := mt (Token.mark_eq_closing_iff (b := .object)).1 ha
    cases first with
    | true =>
      refine stepDecided_openName ts (fun t ht => ?_)
      obtain ⟨r, -, hskip⟩ := ht.skipSpace_cons
      simp [nextMember, hskip, hclosing]
    | false =>
      by_cases hcomma : a = .comma
      · subst hcomma
        have hbehind : StepDecided IsName (fun t => openName (skipSpace t)) ts := by
          cases ts with
          | nil => exact .ended (fun t ht => by simp [ht, openName])
          | cons b ts => exact stepDecided_openName ts (fun _ _ => rfl)
        exact hbehind.after (fun t r _ ht => by simp [nextMember, ht, Token.mark, Token.text])
      · have hmark : a.mark ≠ ',' := mt Token.mark_eq_comma_iff.1 hcomma
        exact .refuse .malformed (fun t r ht => by simp [nextMember, ht, hclosing, hmark])

/-- A bound that is no shorter than a row with a first token has a first character. -/
theorem exists_bound_of_le {n : Nat} {bound : Text} (h : n + 1 ≤ bound.length) :
    ∃ d bound', bound = d :: bound' ∧ n ≤ bound'.length := by
  cases bound with
  | nil => cases h
  | cons d bound' => exact ⟨d, bound', rfl, Nat.le_of_succ_le_succ h⟩

theorem decided_readItemsFrom {α : Type} {item : Reader α} (hitem : Steady item)
    {ts : List Token} (hchain : ts.IsChain Token.Precedes) (first : Bool) (done : List α) :
    Decided (fun bound => readItemsFrom item bound first done) ts 0 := by
  induction hn : ts.length using Nat.strong_induction_on generalizing ts first done with
  | _ n ih =>
    subst hn
    cases ts with
    | nil =>
      refine .ended (fun bound t ht => ?_)
      cases bound <;> simp [readItemsFrom, nextItem, ht]
    | cons a ts =>
      cases stepDecided_nextItem first (a :: ts) with
      | fails fault h =>
        refine .fails fault (fun bound t hbound ht => ?_)
        obtain ⟨d, bound, rfl, -⟩ := exists_bound_of_le hbound
        simp [readItemsFrom, h t ht]
      | close rest hsuffix h =>
        refine .reads done.reverse rest hsuffix hsuffix.length_le (fun bound t hbound ht => ?_)
        obtain ⟨d, bound, rfl, -⟩ := exists_bound_of_le hbound
        obtain ⟨r, hr, hnext⟩ := h t ht
        exact ⟨r, hr, by simp [readItemsFrom, hnext]⟩
      | item lead hlead rest hsuffix h =>
        subst hlead
        cases hitem rest (isChain_of_suffix hchain hsuffix) with
        | fails fault hf =>
          refine .fails fault (fun bound t hbound ht => ?_)
          obtain ⟨d, bound, rfl, -⟩ := exists_bound_of_le hbound
          obtain ⟨r, hr, hnext⟩ := h t ht
          simp [readItemsFrom, hnext, hf r r hr.length_le hr]
        | reads x rest' hsuffix' hlength hx =>
          have hshort := hsuffix.length_le
          have hrest := hsuffix'.trans hsuffix
          refine (ih rest'.length (by omega) (isChain_of_suffix hchain hrest) false (x :: done)
            rfl).of_run hrest (by omega) (fun bound t hbound ht => ?_)
          obtain ⟨d, bound, rfl, hbound'⟩ := exists_bound_of_le hbound
          obtain ⟨r, hr, hnext⟩ := h t ht
          obtain ⟨r', hr', hitem⟩ := hx r r hr.length_le hr
          simp only [List.length_cons] at hshort
          exact ⟨bound, r', by omega, hr', by simp [readItemsFrom, hnext, hitem]⟩

theorem decided_readMembersFrom {σ : Type} {member : σ → Text → Reader σ}
    (hmember : ∀ s name, Steady (member s name)) {ts : List Token}
    (hchain : ts.IsChain Token.Precedes) (first : Bool) (s : σ) :
    Decided (fun bound => readMembersFrom member bound first s) ts 0 := by
  induction hn : ts.length using Nat.strong_induction_on generalizing ts first s with
  | _ n ih =>
    subst hn
    cases ts with
    | nil =>
      refine .ended (fun bound t ht => ?_)
      cases bound <;> simp [readMembersFrom, nextMember, ht]
    | cons a ts =>
      cases stepDecided_nextMember first (a :: ts) with
      | fails fault h =>
        refine .fails fault (fun bound t hbound ht => ?_)
        obtain ⟨d, bound, rfl, -⟩ := exists_bound_of_le hbound
        simp [readMembersFrom, h t ht]
      | close rest hsuffix h =>
        refine .reads s rest hsuffix hsuffix.length_le (fun bound t hbound ht => ?_)
        obtain ⟨d, bound, rfl, -⟩ := exists_bound_of_le hbound
        obtain ⟨r, hr, hnext⟩ := h t ht
        exact ⟨r, hr, by simp [readMembersFrom, hnext]⟩
      | item lead hlead rest hsuffix h =>
        obtain ⟨body, hbody, rfl⟩ := hlead
        simp only [List.append_assoc, List.singleton_append] at h
        rcases readQuoted_cases hbody with ⟨fault, hfault⟩ | ⟨name, hname⟩
        · refine .fails fault (fun bound t hbound ht => ?_)
          obtain ⟨d, bound, rfl, -⟩ := exists_bound_of_le hbound
          obtain ⟨r, hr, hnext⟩ := h t ht
          simp [readMembersFrom, hnext, hfault]
        · cases hmember s name rest (isChain_of_suffix hchain hsuffix) with
          | fails fault hf =>
            refine .fails fault (fun bound t hbound ht => ?_)
            obtain ⟨d, bound, rfl, -⟩ := exists_bound_of_le hbound
            obtain ⟨r, hr, hnext⟩ := h t ht
            simp [readMembersFrom, hnext, hname, hf r r hr.length_le hr]
          | reads s' rest' hsuffix' hlength hx =>
            have hshort := hsuffix.length_le
            have hrest := hsuffix'.trans hsuffix
            refine (ih rest'.length (by omega) (isChain_of_suffix hchain hrest) false s'
              rfl).of_run hrest (by omega) (fun bound t hbound ht => ?_)
            obtain ⟨d, bound, rfl, hbound'⟩ := exists_bound_of_le hbound
            obtain ⟨r, hr, hnext⟩ := h t ht
            obtain ⟨r', hr', hread⟩ := hx r r hr.length_le hr
            simp only [List.length_cons] at hshort
            exact ⟨bound, r', by omega, hr', by simp [readMembersFrom, hnext, hname, hread]⟩

theorem decided_readItems {α : Type} {item : Reader α} (hitem : Steady item) {ts : List Token}
    (hchain : ts.IsChain Token.Precedes) : Decided (fun _ => readItems item) ts 0 :=
  (decided_readItemsFrom hitem hchain true []).self

theorem decided_readMembers {σ : Type} {member : σ → Text → Reader σ}
    (hmember : ∀ s name, Steady (member s name)) {ts : List Token}
    (hchain : ts.IsChain Token.Precedes) (s : σ) :
    Decided (fun _ => readMembers member s) ts 0 :=
  (decided_readMembersFrom hmember hchain true s).self

theorem decided_readPairs {α : Type} {value : Reader α} (hvalue : Steady value)
    {ts : List Token} (hchain : ts.IsChain Token.Precedes) :
    Decided (fun _ => readPairs value) ts 0 := by
  refine (decided_readMembers (fun pairs name => ?_) hchain []).map List.reverse
  exact fun us hus => (steady_readMemberValue hvalue us hus).map (fun a => (name, a) :: pairs)

/-! ## Values -/

theorem steady_readValueWith {part : Option (Reader Value)}
    (hpart : ∀ reader ∈ part, Steady reader) :
    Steady (readValueWith part) := by
  intro ts hchain
  refine (steady_readHead ts hchain).bind (fun head rest hsuffix => ?_)
  have hrest := isChain_of_suffix hchain hsuffix
  cases head with
  | scalar v => exact .pure v
  | list =>
    cases part with
    | none => exact .throw .malformed
    | some reader => exact (decided_readItems (hpart reader rfl) hrest).map Value.list
  | object =>
    cases part with
    | none => exact .throw .malformed
    | some reader => exact (decided_readPairs (hpart reader rfl) hrest).map Value.object

theorem steady_readValue (room : Nat) : Steady (readValue room) := by
  induction room with
  | zero => exact steady_readValueWith (by simp)
  | succ room ih => exact steady_readValueWith (by simpa using ih)

end Json

end SourceClosure
