import SourceClosure.Specifier.Scan

/-!
# Runs of clause characters

The scan for specifiers looks for a clause that ends in `from` only behind the first keyword of a
run of clause characters. This module shows that nothing is lost by that: all clauses of a run end
where the run does, so if the first one does not end in `from`, or no quoted text follows the
run, then no later one leads anywhere either. Main statement: `scanFrom_cons`, by which a round
of the scan looks for every statement form at every place.
-/

namespace SourceClosure

namespace Specifier

/-! ## Cutting behind clause characters -/

theorem before?_append {tail p t q : Text} (h : Text.before? tail t = some q) :
    Text.before? tail (p ++ t) = some (p ++ q) := by
  unfold Text.before? at h ⊢
  split at h
  · next hs =>
    obtain ⟨s, rfl⟩ := List.isSuffixOf_iff_suffix.1 hs
    cases h
    have hp : tail.isSuffixOf (p ++ (s ++ tail)) = true :=
      List.isSuffixOf_iff_suffix.2 ⟨p ++ s, by simp⟩
    rw [if_pos hp]
    simp [← List.append_assoc]
  · cases h

theorem trimEnd_append {f : Char → Bool} {p t : Text} (h : Text.trimEnd f t ≠ []) :
    Text.trimEnd f (p ++ t) = p ++ Text.trimEnd f t := by
  have hd : t.reverse.dropWhile f ≠ [] := by
    intro hc
    exact h (by rw [Text.trimEnd, hc, List.reverse_nil])
  have hf : (t.reverse.dropWhile f).isEmpty = false := by simpa using hd
  simp [Text.trimEnd, List.dropWhile_append, hf]

/-- A clause still ends in `from` with more characters before it. -/
theorem isFromClause_append {p t : Text} (h : isFromClause t = true) :
    isFromClause (p ++ t) = true := by
  unfold isFromClause at h ⊢
  split at h
  · next q hq =>
    have ht : Text.trimEnd Text.isBlank t ≠ [] := by
      intro hc
      rw [hc] at hq
      cases hq
    rw [trimEnd_append ht, before?_append hq]
    simp_all
  · cases h

/-- What a clause that ends in `from` leads to, longer clauses lead to as well. -/
theorem afterFrom?_append {p t : Text} (hp : ∀ c ∈ p, isClauseChar c = true)
    (h : afterFrom? (p ++ t) = none) : afterFrom? t = none := by
  unfold afterFrom? at h ⊢
  rw [List.takeWhile_append_of_pos hp, List.dropWhile_append_of_pos hp] at h
  split
  · next hf => rwa [if_pos (isFromClause_append hf)] at h
  · rfl

/-! ## Keywords -/

/-- A keyword with a clause has six characters, all of which may stand in a clause. -/
theorem eq_append_of_afterKeyword? {t rest : Text} (h : afterKeyword? t = some rest) :
    ∃ word : Text, word.length = 6 ∧ (∀ c ∈ word, isClauseChar c = true) ∧ t = word ++ rest := by
  unfold afterKeyword? at h
  cases hi : Text.after? "import".toList t with
  | some r =>
    rw [hi] at h
    cases h
    exact ⟨_, by decide, List.all_eq_true.1 (by decide), Text.eq_append_of_after? hi⟩
  | none =>
    rw [hi] at h
    exact ⟨_, by decide, List.all_eq_true.1 (by decide), Text.eq_append_of_after? h⟩

/-- Where no statement comes next, the clause behind the keyword leads nowhere. -/
theorem afterFrom?_of_statement? {t rest : Text} (hs : statement? false t = none)
    (hk : afterKeyword? t = some rest) : afterFrom? rest = none := by
  have clause {r : Text} (h : afterClause? false r = none) : afterFrom? r = none := by
    unfold afterClause? at h
    split at h
    · cases h
    · split at h
      · cases h
      · simpa using h
  unfold statement? at hs
  unfold afterKeyword? at hk
  split at hs
  · next hi =>
    rw [hi] at hk
    cases hk
    exact clause (Option.or_eq_none_iff.1 hs).1
  · next hi =>
    rw [hi, Option.none_or] at hk
    rw [hk] at hs
    exact clause hs

/-! ## Barren runs -/

/-- Nowhere in the run of clause characters that comes next is a keyword whose clause ends in
`from` and leads to a quoted text. -/
def Barren (t : Text) : Prop :=
  ∀ run rest after : Text, t = run ++ rest → (∀ c ∈ run, isClauseChar c = true) →
    afterKeyword? rest = some after → afterFrom? after = none

theorem Barren.tail {c : Char} {t : Text} (h : Barren (c :: t)) (hc : isClauseChar c = true) :
    Barren t := by
  intro run rest after ht hrun hk
  refine h (c :: run) rest after (by rw [ht, List.cons_append]) ?_ hk
  intro d hd
  cases hd with
  | head => exact hc
  | tail _ hd => exact hrun d hd

/-- Behind a keyword whose clause does not end in `from`, or leads nowhere, the run is barren:
the clause of a later keyword is the end of the first one's clause. -/
theorem barren_of_afterKeyword? {c : Char} {t rest : Text}
    (hk : afterKeyword? (c :: t) = some rest) (hf : afterFrom? rest = none) : Barren t := by
  obtain ⟨word, hlength, -, hword⟩ := eq_append_of_afterKeyword? hk
  intro run u after ht hrun hu
  obtain ⟨later, hlater, hclause, rfl⟩ := eq_append_of_afterKeyword? hu
  cases word with
  | nil => cases hlength
  | cons d word =>
    have ht' : t = word ++ rest := (List.cons.inj hword).2
    rw [ht', ← List.append_assoc] at ht
    rcases List.append_eq_append_iff.1 ht with ⟨p, hp, hrest⟩ | ⟨p, hp, -⟩
    · rw [hrest] at hf
      refine afterFrom?_append (fun e he => ?_) hf
      have hmem : e ∈ run ++ later := hp ▸ List.mem_append_right word he
      exact (List.mem_append.1 hmem).elim (hrun e) (hclause e)
    · have := congrArg List.length hp
      simp only [List.length_append, List.length_cons] at this hlength
      omega

/-- Where a run is barren, clauses that end in `from` need no look. -/
theorem Barren.statement? {t : Text} (h : Barren t) : statement? true t = statement? false t := by
  have clause {r : Text} (hr : afterFrom? r = none) :
      afterClause? true r = afterClause? false r := by
    simp [afterClause?, hr]
  have key {r : Text} (hk : afterKeyword? t = some r) : afterFrom? r = none :=
    h [] t r rfl (fun _ hc => by cases hc) hk
  unfold Specifier.statement?
  split
  · next hi => rw [clause (key (by rw [afterKeyword?, hi, Option.some_or]))]
  · next hi =>
    split
    · next he => rw [clause (key (by rw [afterKeyword?, hi, he, Option.none_or]))]
    · rfl

/-- In a barren run it makes no difference whether the scan knows. -/
theorem Barren.scanFrom {t : Text} (h : Barren t) (bound : Text) (free : Bool)
    (found : List Text) :
    scanFrom bound free true found t = scanFrom bound free false found t := by
  induction bound generalizing t free with
  | nil => simp [Specifier.scanFrom]
  | cons b bound ih =>
    cases t with
    | nil => simp [Specifier.scanFrom]
    | cons c t =>
      unfold Specifier.scanFrom
      rw [h.statement?]
      split
      · rfl
      · cases hc : isClauseChar c with
        | false => simp
        | true =>
          simp only [Bool.true_or, Bool.and_true, Bool.false_or]
          rw [ih (h.tail hc)]
          cases free && (afterKeyword? (c :: t)).isSome with
          | false => rfl
          | true => exact (ih (h.tail hc) _).symm

/-! ## The scan, one round at a time -/

/-- A round of the scan takes the statement that comes next, if a keyword may start here and there
is one, of whatever form, and else a character. -/
theorem scanFrom_cons (b c : Char) (bound t : Text) (free : Bool) (found : List Text) :
    scanFrom (b :: bound) free false found (c :: t) =
      match if free then statement? false (c :: t) else none with
      | some (inner, rest) => scanFrom bound false false (inner :: found) rest
      | none => scanFrom bound (!continuesName c) false found t := by
  rw [scanFrom]
  cases hs : if free then statement? false (c :: t) else none with
  | some _ => rfl
  | none =>
    simp only [Bool.false_or]
    cases hp : free && (afterKeyword? (c :: t)).isSome with
    | false => simp
    | true =>
      obtain ⟨hfree, hk⟩ := Bool.and_eq_true_iff.1 hp
      obtain ⟨rest, hk⟩ := Option.isSome_iff_exists.1 hk
      rw [if_pos hfree] at hs
      cases hc : isClauseChar c with
      | false => simp
      | true =>
        have := barren_of_afterKeyword? hk (afterFrom?_of_statement? hs hk)
        simpa using this.scanFrom bound (!continuesName c) found

end Specifier

end SourceClosure
