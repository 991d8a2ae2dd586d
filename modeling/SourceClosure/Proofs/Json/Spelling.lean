import SourceClosure.Proofs.Json.Scalar

/-!
# Spelling strings

A character may be written in a string as it is, or behind a backslash as a letter, as one UTF-16 unit
or as two (`Escaped`). A string is read from the texts that spell it so, and from no others
(`readQuoted_eq_ok_iff`).
-/

namespace SourceClosure

namespace Json

/-! ## Answers of readers -/

section Answers

variable {α β : Type}

theorem bind_eq_ok_iff {x : Except Fault α} {f : α → Except Fault β} {b : β} :
    x >>= f = .ok b ↔ ∃ a, x = .ok a ∧ f a = .ok b := by
  cases x <;> simp [bind, Except.bind]

theorem map_eq_ok_iff {x : Except Fault α} {f : α → β} {b : β} :
    x.map f = .ok b ↔ ∃ a, x = .ok a ∧ f a = b := by
  cases x <;> simp [Except.map]

theorem readerBind_eq_ok_iff {reader : Reader α} {next : α → Reader β} {t r : Text} {b : β} :
    (reader >>= next) t = .ok (b, r) ↔
      ∃ a u, reader t = .ok (a, u) ∧ next a u = .ok (b, r) := by
  change reader t >>= (fun read => next read.1 read.2) = .ok (b, r) ↔ _
  rw [bind_eq_ok_iff, Prod.exists]

theorem readerMap_eq_ok_iff {reader : Reader α} {f : α → β} {t r : Text} {b : β} :
    (f <$> reader) t = .ok (b, r) ↔ ∃ a, reader t = .ok (a, r) ∧ f a = b := by
  rw [map_eq_pure_bind, readerBind_eq_ok_iff]
  constructor
  · rintro ⟨a, u, ha, hb⟩
    cases hb
    exact ⟨a, ha, rfl⟩
  · rintro ⟨a, ha, rfl⟩
    exact ⟨a, r, ha, rfl⟩

end Answers

/-! ## Escapes -/

theorem expectWord_eq_ok_iff {word t r : Text} : expectWord word t = .ok r ↔ t = word ++ r := by
  induction word generalizing t with
  | nil => simp [expectWord]
  | cons w word ih =>
    cases t with
    | nil => simp [expectWord]
    | cons c t =>
      rw [expectWord]
      split
      · next hc => simp [hc, ih]
      · next hc => simp [hc]

theorem readUnit_eq_ok_iff {t r : Text} {n : Nat} :
    readUnit t = .ok (n, r) ↔ ∃ a b c d, hexUnit? a b c d = some n ∧ t = a :: b :: c :: d :: r := by
  constructor
  · intro h
    unfold readUnit at h
    split at h
    · split at h
      · next hn =>
        cases h
        exact ⟨_, _, _, _, hn, rfl⟩
      · cases h
    · split at h <;> cases h
  · rintro ⟨a, b, c, d, hn, rfl⟩
    simp [readUnit, hn]

theorem readTrailing_eq_ok_iff {t r : Text} {n : Nat} :
    readTrailing t = .ok (n, r) ↔ ∃ a b c d, hexUnit? a b c d = some n ∧ isTrailing n = true ∧
      t = '\\' :: 'u' :: a :: b :: c :: d :: r := by
  unfold readTrailing
  simp only [bind_eq_ok_iff, expectWord_eq_ok_iff, Prod.exists]
  constructor
  · rintro ⟨u, rfl, m, rest, hunit, hr⟩
    obtain ⟨a, b, c, d, hm, rfl⟩ := readUnit_eq_ok_iff.1 hunit
    split at hr
    · next htrailing =>
      cases hr
      exact ⟨a, b, c, d, hm, htrailing, rfl⟩
    · cases hr
  · rintro ⟨a, b, c, d, hn, htrailing, rfl⟩
    exact ⟨_, rfl, n, r, readUnit_eq_ok_iff.2 ⟨a, b, c, d, hn, rfl⟩, by rw [if_pos htrailing]; rfl⟩

/-- The text is how the character may be escaped, behind the backslash. -/
inductive Escaped : Char → Text → Prop where
  | short {letter c : Char} : shortEscape? letter = some c → Escaped c [letter]
  | unit {a b c d : Char} {n : Nat} : hexUnit? a b c d = some n → isTrailing n = false →
      isLeading n = false → Escaped (Char.ofNat n) ['u', a, b, c, d]
  | pair {a b c d e f g h : Char} {n m : Nat} : hexUnit? a b c d = some n → isTrailing n = false →
      isLeading n = true → hexUnit? e f g h = some m → isTrailing m = true →
      Escaped (pairChar n m) ['u', a, b, c, d, '\\', 'u', e, f, g, h]

/-- What is read from the digits is escaped by them. -/
theorem exists_of_readUnicode {t r : Text} {c : Char} (h : readUnicode t = .ok (c, r)) :
    ∃ digits, Escaped c ('u' :: digits) ∧ t = digits ++ r := by
  unfold readUnicode at h
  obtain ⟨⟨n, rest⟩, hunit, hread⟩ := bind_eq_ok_iff.1 h
  obtain ⟨a, b, d, e, hn, rfl⟩ := readUnit_eq_ok_iff.1 hunit
  dsimp only at hread
  split at hread
  · cases hread
  · next htrailing =>
    rw [Bool.not_eq_true] at htrailing
    split at hread
    · next hleading =>
      obtain ⟨⟨m, rest'⟩, hpair, hlast⟩ := bind_eq_ok_iff.1 hread
      obtain ⟨a', b', d', e', hm, htrailing', rfl⟩ := readTrailing_eq_ok_iff.1 hpair
      obtain ⟨rfl, rfl⟩ := Prod.mk.inj (Except.ok.inj hlast)
      exact ⟨_, .pair hn htrailing hleading hm htrailing', rfl⟩
    · next hleading =>
      rw [Bool.not_eq_true] at hleading
      cases hread
      exact ⟨_, .unit hn htrailing hleading, rfl⟩

theorem readEscape_eq_ok_iff {t r : Text} {c : Char} :
    readEscape t = .ok (c, r) ↔ ∃ mark, Escaped c mark ∧ t = mark ++ r := by
  constructor
  · intro h
    cases t with
    | nil => cases h
    | cons letter t =>
      rw [readEscape] at h
      split at h
      · next hletter =>
        obtain ⟨digits, hdigits, rfl⟩ := exists_of_readUnicode h
        exact ⟨_, hletter ▸ hdigits, rfl⟩
      · split at h
        · next hshort =>
          cases h
          exact ⟨_, .short hshort, rfl⟩
        · cases h
  · rintro ⟨mark, hmark, rfl⟩
    cases hmark with
    | @short letter c hshort =>
      have hne : letter ≠ 'u' := by rintro rfl; cases hshort
      simp [readEscape, hne, hshort]
    | unit hn htrailing hleading =>
      simp [readEscape, readUnicode, readUnit, hn, htrailing, hleading, bind, Except.bind, pure,
        Except.pure]
    | @pair a b c d e f g h n m hn htrailing hleading hm htrailing' =>
      have hpair : readTrailing ('\\' :: 'u' :: e :: f :: g :: h :: r) = .ok (m, r) :=
        readTrailing_eq_ok_iff.2 ⟨e, f, g, h, hm, htrailing', rfl⟩
      simp [readEscape, readUnicode, readUnit, hn, htrailing, hleading, hpair, bind, Except.bind,
        pure, Except.pure]

/-! ## Strings -/

/-- The text between quotation marks spells the characters. -/
inductive Spells : (body chars : Text) → Prop where
  | nil : Spells [] []
  | plain {c : Char} {body s : Text} : c ≠ '"' → c ≠ '\\' → isControl c = false → Spells body s →
      Spells (c :: body) (c :: s)
  | escaped {c : Char} {mark body s : Text} : Escaped c mark → Spells body s →
      Spells ('\\' :: (mark ++ body)) (c :: s)

theorem exists_of_readQuotedFrom {bound read t s r : Text}
    (h : readQuotedFrom bound read t = .ok (s, r)) :
    ∃ body chars, Spells body chars ∧ s = read.reverse ++ chars ∧ t = body ++ '"' :: r := by
  induction bound generalizing read t with
  | nil => cases t <;> cases h
  | cons b bound ih =>
    cases t with
    | nil => cases h
    | cons c t =>
      rw [readQuotedFrom] at h
      split at h
      · next hquote =>
        cases h
        exact ⟨[], [], .nil, by simp, by rw [hquote]; rfl⟩
      · next hquote =>
        split at h
        · next hback =>
          split at h
          · cases h
          · next e rest hescape =>
            obtain ⟨mark, hmark, rfl⟩ := readEscape_eq_ok_iff.1 hescape
            obtain ⟨body, chars, hbody, rfl, rfl⟩ := ih h
            exact ⟨_, e :: chars, .escaped hmark hbody, by simp, by simp [hback]⟩
        · next hback =>
          split at h
          · cases h
          · next hcontrol =>
            rw [Bool.not_eq_true] at hcontrol
            obtain ⟨body, chars, hbody, rfl, rfl⟩ := ih h
            exact ⟨c :: body, c :: chars, .plain hquote hback hcontrol hbody, by simp, rfl⟩

theorem readQuotedFrom_of_spells {body chars : Text} (h : Spells body chars) :
    ∀ {bound : Text} (read r : Text), body.length < bound.length →
      readQuotedFrom bound read (body ++ '"' :: r) = .ok (read.reverse ++ chars, r) := by
  induction h with
  | nil =>
    intro bound read r hbound
    cases bound with
    | nil => cases hbound
    | cons b bound => simp [readQuotedFrom]
  | plain hquote hback hcontrol _ ih =>
    intro bound read r hbound
    obtain ⟨b, bound, rfl, hlt⟩ := exists_bound hbound
    simpa [readQuotedFrom, hquote, hback, hcontrol] using ih (_ :: read) r hlt
  | @escaped c mark body s hmark _ ih =>
    intro bound read r hbound
    obtain ⟨b, bound, rfl, hlt⟩ := exists_bound hbound
    have hescape : readEscape (mark ++ (body ++ '"' :: r)) = .ok (c, body ++ '"' :: r) :=
      readEscape_eq_ok_iff.2 ⟨mark, hmark, rfl⟩
    rw [List.length_append] at hlt
    have hrest := ih (c :: read) r (Nat.lt_of_le_of_lt (Nat.le_add_left _ _) hlt)
    simpa [readQuotedFrom, hescape] using hrest

/-- The characters of a string are read from what spells them, and from nothing else. -/
theorem readQuoted_eq_ok_iff {t s r : Text} :
    readQuoted t = .ok (s, r) ↔ ∃ body, Spells body s ∧ t = body ++ '"' :: r := by
  constructor
  · intro h
    obtain ⟨body, chars, hbody, rfl, rfl⟩ := exists_of_readQuotedFrom h
    exact ⟨body, hbody, rfl⟩
  · rintro ⟨body, hbody, rfl⟩
    refine readQuotedFrom_of_spells hbody [] r ?_
    simp only [List.length_append, List.length_cons]
    omega

end Json

end SourceClosure
