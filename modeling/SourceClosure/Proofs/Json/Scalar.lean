import SourceClosure.Proofs.Json.Token

/-!
# Reading strings and numbers

The readers of strings and numbers on texts that start with one. What they make of it does not
depend on what follows: a string ends with its quotation mark, and a number ends where a text
follows that does not continue it (`Stops`). A string may be refused, since surrogates have to be
paired, and then it is refused whatever follows.
-/

namespace SourceClosure

namespace Json

/-! ## Escapes -/

theorem exists_hexValue? {c : Char} (h : isHexDigit c = true) : ∃ n, hexValue? c = some n := by
  have hle (a b : Char) : a ≤ b ↔ a.toNat ≤ b.toNat := by
    rw [Char.le_def, UInt32.le_iff_toNat_le]
    rfl
  have hdigit : c.isDigit = true ↔ '0'.toNat ≤ c.toNat ∧ c.toNat ≤ '9'.toNat := by
    simp only [Char.isDigit, Bool.and_eq_true, decide_eq_true_eq, ge_iff_le,
      UInt32.le_iff_toNat_le]
    rfl
  unfold hexValue?
  dsimp only
  split
  · exact ⟨_, rfl⟩
  · split
    · exact ⟨_, rfl⟩
    · split
      · exact ⟨_, rfl⟩
      · next hno hlower hupper =>
        simp only [isHexDigit, Bool.or_eq_true, Bool.and_eq_true, decide_eq_true_eq, hle,
          hdigit] at h
        rcases h with (h | h) | h
        · exact absurd h hno
        · exact absurd h hlower
        · exact absurd h hupper

theorem exists_readUnit {a b c d : Char} (ha : isHexDigit a = true) (hb : isHexDigit b = true)
    (hc : isHexDigit c = true) (hd : isHexDigit d = true) :
    ∃ n, ∀ r, readUnit (a :: b :: c :: d :: r) = .ok (n, r) := by
  obtain ⟨va, hva⟩ := exists_hexValue? ha
  obtain ⟨vb, hvb⟩ := exists_hexValue? hb
  obtain ⟨vc, hvc⟩ := exists_hexValue? hc
  obtain ⟨vd, hvd⟩ := exists_hexValue? hd
  exact ⟨((va * 16 + vb) * 16 + vc) * 16 + vd, fun r => by
    simp [readUnit, hexUnit?, hva, hvb, hvc, hvd]⟩

theorem exists_shortEscape? {c : Char} (h : c ∈ escapable) :
    c ≠ 'u' ∧ ∃ e, shortEscape? c = some e := by
  have hall : ∀ c ∈ escapable, c ≠ 'u' ∧ (shortEscape? c).isSome = true :=
    List.all_iff_forall_prop.1 (by decide)
  obtain ⟨hne, hsome⟩ := hall c h
  exact ⟨hne, Option.isSome_iff_exists.1 hsome⟩

/-- A trailing surrogate is read only from an escape, so what stands behind the string does not
matter. -/
theorem readTrailing_cases {t : Text} (h : IsQuoted t) :
    (∃ fault, ∀ r, readTrailing (t ++ '"' :: r) = .error fault) ∨
      ∃ n rest, IsQuoted rest ∧ rest.length < t.length ∧
        ∀ r, readTrailing (t ++ '"' :: r) = .ok (n, rest ++ '"' :: r) := by
  cases h with
  | nil => exact .inl ⟨.malformed, fun r => rfl⟩
  | @plain c t _ hc _ _ =>
    refine .inl ⟨.malformed, fun r => ?_⟩
    simp [readTrailing, expectWord, hc, bind, Except.bind]
  | @short c t hc _ =>
    obtain ⟨hne, -⟩ := exists_shortEscape? hc
    refine .inl ⟨.malformed, fun r => ?_⟩
    simp [readTrailing, expectWord, hne, bind, Except.bind]
  | @unit a b c d t ha hb hc hd ht =>
    obtain ⟨n, hn⟩ := exists_readUnit ha hb hc hd
    cases htrailing : isTrailing n with
    | true =>
      refine .inr ⟨n, t, ht, by simp only [List.length_cons]; omega, fun r => ?_⟩
      simp [readTrailing, expectWord, hn, htrailing, bind, Except.bind, pure, Except.pure]
    | false =>
      refine .inl ⟨.malformed, fun r => ?_⟩
      simp [readTrailing, expectWord, hn, htrailing, bind, Except.bind, throw, throwThe,
        MonadExceptOf.throw]

theorem readUnicode_cases {a b c d : Char} {t : Text} (ha : isHexDigit a = true)
    (hb : isHexDigit b = true) (hc : isHexDigit c = true) (hd : isHexDigit d = true)
    (ht : IsQuoted t) :
    (∃ fault, ∀ r, readUnicode (a :: b :: c :: d :: (t ++ '"' :: r)) = .error fault) ∨
      ∃ e rest, IsQuoted rest ∧ rest.length ≤ t.length ∧
        ∀ r, readUnicode (a :: b :: c :: d :: (t ++ '"' :: r)) = .ok (e, rest ++ '"' :: r) := by
  obtain ⟨n, hn⟩ := exists_readUnit ha hb hc hd
  cases htrailing : isTrailing n with
  | true =>
    refine .inl ⟨.malformed, fun r => ?_⟩
    simp [readUnicode, hn, htrailing, bind, Except.bind, throw, throwThe, MonadExceptOf.throw]
  | false =>
    cases hleading : isLeading n with
    | true =>
      rcases readTrailing_cases ht with ⟨fault, hfault⟩ | ⟨m, rest, hrest, hlength, hm⟩
      · refine .inl ⟨fault, fun r => ?_⟩
        simp [readUnicode, hn, htrailing, hleading, hfault, bind, Except.bind]
      · refine .inr ⟨pairChar n m, rest, hrest, by omega, fun r => ?_⟩
        simp [readUnicode, hn, htrailing, hleading, hm, bind, Except.bind, pure, Except.pure]
    | false =>
      refine .inr ⟨Char.ofNat n, t, ht, le_rfl, fun r => ?_⟩
      simp [readUnicode, hn, htrailing, hleading, bind, Except.bind, pure, Except.pure]

/-- An escape is refused or read whatever stands behind the string. -/
theorem readEscape_cases {t : Text} (h : IsQuoted ('\\' :: t)) :
    (∃ fault, ∀ r, readEscape (t ++ '"' :: r) = .error fault) ∨
      ∃ e rest, IsQuoted rest ∧ rest.length < t.length ∧
        ∀ r, readEscape (t ++ '"' :: r) = .ok (e, rest ++ '"' :: r) := by
  cases h with
  | plain _ hne _ _ => exact absurd rfl hne
  | @short c t hc ht =>
    obtain ⟨hne, e, he⟩ := exists_shortEscape? hc
    refine .inr ⟨e, t, ht, by simp, fun r => ?_⟩
    simp [readEscape, hne, he]
  | @unit a b c d t ha hb hc hd ht =>
    rcases readUnicode_cases ha hb hc hd ht with ⟨fault, hfault⟩ | ⟨e, rest, hrest, hlength, he⟩
    · exact .inl ⟨fault, fun r => by simpa [readEscape] using hfault r⟩
    · refine .inr ⟨e, rest, hrest, by simp only [List.length_cons]; omega, fun r => ?_⟩
      simpa [readEscape] using he r

/-! ## Strings -/

theorem isControl_eq_false {c : Char} (h : ' ' ≤ c) : isControl c = false := by
  have hle : ' '.toNat ≤ c.toNat := by
    rw [Char.le_def, UInt32.le_iff_toNat_le] at h
    exact h
  simpa [isControl] using hle

/-- Behind the characters `read`, the rest of a string is refused or read, whatever stands behind
it. -/
def Settled (read body : Text) : Prop :=
  (∃ fault, ∀ bound r, body.length < bound.length →
    readQuotedFrom bound read (body ++ '"' :: r) = .error fault) ∨
  ∃ s, ∀ bound r, body.length < bound.length →
    readQuotedFrom bound read (body ++ '"' :: r) = .ok (s, r)

theorem Settled.step {read read' body rest : Text} (h : Settled read' rest)
    (hstep : ∀ bound r, body.length < bound.length → ∃ bound', rest.length < bound'.length ∧
      readQuotedFrom bound read (body ++ '"' :: r) =
        readQuotedFrom bound' read' (rest ++ '"' :: r)) : Settled read body := by
  rcases h with ⟨fault, hfault⟩ | ⟨s, hs⟩
  · refine .inl ⟨fault, fun bound r hlt => ?_⟩
    obtain ⟨bound', hlt', heq⟩ := hstep bound r hlt
    rw [heq, hfault bound' r hlt']
  · refine .inr ⟨s, fun bound r hlt => ?_⟩
    obtain ⟨bound', hlt', heq⟩ := hstep bound r hlt
    rw [heq, hs bound' r hlt']

/-- A bound that is longer than a text with a first character has one too. -/
theorem exists_bound {c : Char} {t bound : Text} (h : (c :: t).length < bound.length) :
    ∃ d bound', bound = d :: bound' ∧ t.length < bound'.length := by
  cases bound with
  | nil => cases h
  | cons d bound' => exact ⟨d, bound', rfl, Nat.lt_of_succ_lt_succ h⟩

theorem settled {body : Text} (h : IsQuoted body) (read : Text) : Settled read body := by
  -- An escaped pair of surrogates takes two steps of the grammar at once.
  induction hn : body.length using Nat.strong_induction_on generalizing body read with
  | _ n ih =>
    subst hn
    cases body with
    | nil =>
      refine .inr ⟨read.reverse, fun bound r hlt => ?_⟩
      cases bound with
      | nil => cases hlt
      | cons d bound => simp [readQuotedFrom]
    | cons c t =>
      by_cases hc : c = '\\'
      · subst hc
        rcases readEscape_cases h with ⟨fault, hfault⟩ | ⟨e, rest, hrest, hlength, he⟩
        · refine .inl ⟨fault, fun bound r hlt => ?_⟩
          obtain ⟨d, bound, rfl, -⟩ := exists_bound hlt
          simp [readQuotedFrom, hfault]
        · refine (ih _ (Nat.lt_succ_of_lt hlength) hrest (e :: read) rfl).step ?_
          intro bound r hlt
          obtain ⟨d, bound, rfl, hlt'⟩ := exists_bound hlt
          exact ⟨bound, hlength.trans hlt', by simp [readQuotedFrom, he]⟩
      · cases h with
        | plain hquote _ hspace ht =>
          refine (ih _ (Nat.lt_succ_self _) ht (c :: read) rfl).step ?_
          intro bound r hlt
          obtain ⟨d, bound, rfl, hlt'⟩ := exists_bound hlt
          have hcontrol := isControl_eq_false hspace
          exact ⟨bound, hlt', by simp [readQuotedFrom, hquote, hc, hcontrol]⟩
        | short => exact absurd rfl hc
        | unit => exact absurd rfl hc

/-- A string is refused or read whatever stands behind it. -/
theorem readQuoted_cases {body : Text} (h : IsQuoted body) :
    (∃ fault, ∀ r, readQuoted (body ++ '"' :: r) = .error fault) ∨
      ∃ s, ∀ r, readQuoted (body ++ '"' :: r) = .ok (s, r) := by
  have hlength (r : Text) : body.length < (body ++ '"' :: r).length := by
    simp only [List.length_append, List.length_cons]
    omega
  rcases settled h [] with ⟨fault, hfault⟩ | ⟨s, hs⟩
  · exact .inl ⟨fault, fun r => hfault _ r (hlength r)⟩
  · exact .inr ⟨s, fun r => hs _ r (hlength r)⟩

/-- A string that nobody asks for is passed over. -/
theorem skipQuoted_of_isQuoted {body : Text} (h : IsQuoted body) (r : Text) :
    skipQuoted (body ++ '"' :: r) = .ok r := by
  have hfrom (bound : Text) (hlt : body.length < bound.length) :
      skipQuotedFrom bound (body ++ '"' :: r) = .ok r := by
    induction h generalizing bound with
    | nil =>
      cases bound with
      | nil => cases hlt
      | cons d bound => simp [skipQuotedFrom]
    | plain hquote hback hspace _ ih =>
      obtain ⟨d, bound, rfl, hlt'⟩ := exists_bound hlt
      have hcontrol := isControl_eq_false hspace
      simpa [skipQuotedFrom, hquote, hback, hcontrol] using ih bound hlt'
    | short hc _ ih =>
      obtain ⟨d, bound, rfl, hlt'⟩ := exists_bound hlt
      obtain ⟨hne, e, he⟩ := exists_shortEscape? hc
      simpa [skipQuotedFrom, skipEscape, hne, he] using ih bound (Nat.lt_of_succ_lt hlt')
    | unit ha hb hc hd _ ih =>
      obtain ⟨d, bound, rfl, hlt'⟩ := exists_bound hlt
      obtain ⟨n, hn⟩ := exists_readUnit ha hb hc hd
      simp only [List.length_cons] at hlt'
      simpa [skipQuotedFrom, skipEscape, hn, Except.map] using ih bound (by omega)
  refine hfrom _ ?_
  simp only [List.length_append, List.length_cons]
  omega

/-! ## Numbers -/

/-- The text does not continue a number. -/
def Stops (r : Text) : Prop :=
  ∀ c ∈ r.head?, c.isDigit = false ∧ c ≠ '.' ∧ c ≠ 'e' ∧ c ≠ 'E'

namespace Numeral

theorem readDigits_append {digits r : Text} (h : IsDigits digits)
    (hr : ∀ c ∈ r.head?, c.isDigit = false) (fault : Fault) :
    readDigits fault (digits ++ r) = .ok (digits, r) := by
  have htake : (digits ++ r).takeWhile Char.isDigit = digits := by
    rw [List.takeWhile_append_of_pos h.isDigit]
    cases r with
    | nil => simp
    | cons c r => simp [hr c rfl]
  have hdrop : (digits ++ r).dropWhile Char.isDigit = r := by
    rw [List.dropWhile_append_of_pos h.isDigit]
    cases r with
    | nil => rfl
    | cons c r => simp [hr c rfl]
  obtain ⟨d, rest, rfl, -⟩ := h.exists_cons
  unfold readDigits
  rw [htake, hdrop]

theorem exists_readFraction {fraction : Text} (h : IsFraction fraction) :
    ∃ digits, ∀ fault r, (∀ c ∈ r.head?, c.isDigit = false ∧ c ≠ '.') →
      readFraction fault (fraction ++ r) = .ok (digits, r) := by
  rcases h with rfl | ⟨digits, hdigits, rfl⟩
  · refine ⟨none, fun fault r hr => ?_⟩
    cases r with
    | nil => rfl
    | cons c r => simp [readFraction, (hr c rfl).2]
  · refine ⟨some digits, fun fault r hr => ?_⟩
    have hread := readDigits_append hdigits (fun c hc => (hr c hc).1) fault
    simp [readFraction, hread, bind, Except.bind, pure, Except.pure]

theorem exists_readSign {sign digits : Text} (hsign : sign = [] ∨ sign = ['+'] ∨ sign = ['-'])
    (hdigits : IsDigits digits) :
    ∃ negative, ∀ r, readSign (sign ++ (digits ++ r)) = (negative, digits ++ r) := by
  rcases hsign with rfl | rfl | rfl
  · obtain ⟨d, rest, rfl, hd⟩ := hdigits.exists_cons
    have hplus : d ≠ '+' := by rintro rfl; cases hd
    have hminus : d ≠ '-' := by rintro rfl; cases hd
    exact ⟨false, fun r => by simp [readSign, hplus, hminus]⟩
  · exact ⟨false, fun r => rfl⟩
  · exact ⟨true, fun r => rfl⟩

theorem exists_readExponent {exponent : Text} (h : IsExponent exponent) :
    ∃ value, ∀ fault r, Stops r →
      readExponent fault (exponent ++ r) = .ok (value, r) := by
  rcases h with rfl | ⟨mark, sign, digits, hmark, hsign, hdigits, rfl⟩
  · refine ⟨none, fun fault r hr => ?_⟩
    cases r with
    | nil => rfl
    | cons c r =>
      obtain ⟨-, -, he, hE⟩ := hr c rfl
      simp [readExponent, he, hE]
  · obtain ⟨negative, hnegative⟩ := exists_readSign hsign hdigits
    refine ⟨some (negative, digits), fun fault r hr => ?_⟩
    have hread := readDigits_append hdigits (fun c hc => (hr c hc).1) fault
    simp [readExponent, hmark, hnegative, hread, bind, Except.bind, pure, Except.pure]

theorem exists_readMinus {minus whole : Text} (hminus : minus = [] ∨ minus = ['-'])
    (hwhole : IsDigits whole) :
    ∃ negative, ∀ r, readMinus (minus ++ (whole ++ r)) = (negative, whole ++ r) := by
  rcases hminus with rfl | rfl
  · obtain ⟨d, rest, rfl, hd⟩ := hwhole.exists_cons
    have hne : d ≠ '-' := by rintro rfl; cases hd
    exact ⟨false, fun r => by simp [readMinus, hne]⟩
  · exact ⟨true, fun r => rfl⟩

/-- What stands behind the whole part of a number does not continue that part. -/
theorem head?_exponent {exponent r : Text} (h : IsExponent exponent) (hr : Stops r) :
    ∀ c ∈ (exponent ++ r).head?, c.isDigit = false ∧ c ≠ '.' := by
  rcases h with rfl | ⟨mark, sign, digits, hmark, -, -, rfl⟩
  · exact fun c hc => ⟨(hr c hc).1, (hr c hc).2.1⟩
  · rintro c ⟨⟩
    rcases hmark with rfl | rfl <;> decide

theorem head?_fraction {fraction exponent r : Text} (h : IsFraction fraction)
    (hexponent : IsExponent exponent) (hr : Stops r) :
    ∀ c ∈ (fraction ++ (exponent ++ r)).head?, c.isDigit = false := by
  rcases h with rfl | ⟨digits, -, rfl⟩
  · exact fun c hc => (head?_exponent hexponent hr c hc).1
  · rintro c ⟨⟩
    decide

/-- A number is read whole where it does not go on. -/
theorem exists_read {digits : Text} (h : IsNumber digits) :
    ∃ n, ∀ fault r, Stops r → Numeral.read fault (digits ++ r) = .ok (n, r) := by
  obtain ⟨minus, whole, fraction, exponent, hminus, hwhole, hfraction, hexponent, rfl⟩ := h
  obtain ⟨negative, hnegative⟩ := exists_readMinus hminus hwhole.toIsDigits
  obtain ⟨part, hpart⟩ := exists_readFraction hfraction
  obtain ⟨power, hpower⟩ := exists_readExponent hexponent
  refine ⟨⟨negative, whole, part, power⟩, fun fault r hr => ?_⟩
  have hdigits := readDigits_append hwhole.toIsDigits (head?_fraction hfraction hexponent hr) fault
  have hzero : ¬ (whole.head? = some '0' ∧ whole ≠ ['0']) := fun hz => hz.2 (hwhole.zero hz.1)
  have hrest := hpart fault (exponent ++ r) (head?_exponent hexponent hr)
  simp only [List.append_assoc]
  unfold Numeral.read
  simp [hnegative, hdigits, hzero, hrest, hpower fault r hr, bind, Except.bind, pure, Except.pure]

end Numeral

end Json

end SourceClosure
