import Mathlib.Data.List.DropRight
import Mathlib.Data.List.TakeWhile
import SourceClosure.Text.Basic

/-!
# Cutting texts

A text that is cut at the first occurrence of a character or of a whole text is what stands before
it, the occurrence itself, and what stands behind; and what is put together like that is cut into
the same parts again.
-/

namespace SourceClosure

namespace Text

/-! ## Cutting at the ends -/

theorem after?_eq_some_iff {head t rest : Text} : after? head t = some rest ↔ t = head ++ rest := by
  constructor
  · exact eq_append_of_after?
  · rintro rfl
    simp [after?]

theorem before?_eq_some_iff {tail t rest : Text} :
    before? tail t = some rest ↔ t = rest ++ tail := by
  unfold before?
  constructor
  · intro h
    split at h
    · next hsuffix =>
      obtain ⟨s, rfl⟩ := List.isSuffixOf_iff_suffix.1 hsuffix
      cases h
      simp
    · cases h
  · rintro rfl
    have hsuffix : tail.isSuffixOf (rest ++ tail) = true :=
      List.isSuffixOf_iff_suffix.2 (List.suffix_append rest tail)
    rw [if_pos hsuffix]
    simp

theorem trim_eq_rdropWhile (p : Char → Bool) (t : Text) :
    trim p t = (t.dropWhile p).rdropWhile p := rfl

theorem mem_of_mem_trim {p : Char → Bool} {c : Char} {t : Text} (h : c ∈ trim p t) : c ∈ t :=
  (List.dropWhile_suffix p).subset ((List.rdropWhile_prefix p _).subset h)

/-- Nothing is left of a text only if all of it is cut off. -/
theorem trim_eq_nil_iff {p : Char → Bool} {t : Text} : trim p t = [] ↔ ∀ c ∈ t, p c = true := by
  rw [trim_eq_rdropWhile, List.rdropWhile_eq_nil_iff, ← List.dropWhile_eq_nil_iff,
    List.dropWhile_idempotent, List.dropWhile_eq_nil_iff]

/-- What is left of a text starts with a character that stays. -/
theorem dropWhile_trim (p : Char → Bool) (t : Text) : (trim p t).dropWhile p = trim p t := by
  have hfirst := List.head?_dropWhile_not p t
  obtain ⟨cut, hcut⟩ := List.rdropWhile_prefix p (t.dropWhile p)
  rw [← trim_eq_rdropWhile] at hcut
  rw [← hcut] at hfirst
  cases htrim : trim p t with
  | nil => rfl
  | cons c s =>
    rw [htrim] at hfirst
    exact List.dropWhile_cons_of_neg (Bool.eq_false_iff.1 hfirst)

/-- There is nothing left to cut off. -/
theorem trim_trim (p : Char → Bool) (t : Text) : trim p (trim p t) = trim p t := by
  rw [trim_eq_rdropWhile p (trim p t), dropWhile_trim]
  exact List.rdropWhile_idempotent p _

/-! ## Splitting at a character -/

theorem splitOnce_of_not_mem {sep : Char} {t : Text} (h : sep ∉ t) : splitOnce sep t = none := by
  have hdrop : t.dropWhile (· != sep) = [] := by
    rw [List.dropWhile_eq_nil_iff]
    intro c hc
    simp only [bne_iff_ne, ne_eq]
    rintro rfl
    exact h hc
  rw [splitOnce, hdrop]

theorem splitOnce_append {sep : Char} {s : Text} (h : sep ∉ s) (t : Text) :
    splitOnce sep (s ++ sep :: t) = some (s, t) := by
  have hs : ∀ c ∈ s, (c != sep) = true := by
    intro c hc
    simp only [bne_iff_ne, ne_eq]
    rintro rfl
    exact h hc
  rw [splitOnce, List.dropWhile_append_of_pos hs, List.takeWhile_append_of_pos hs]
  simp

theorem not_mem_takeWhile (sep : Char) (t : Text) : sep ∉ t.takeWhile (· != sep) := by
  intro hmem
  simpa using List.all_eq_true.1 List.all_takeWhile sep hmem

theorem not_mem_of_splitOnce {sep : Char} {t : Text} (h : splitOnce sep t = none) : sep ∉ t := by
  have hcut := List.takeWhile_append_dropWhile (p := (· != sep)) (l := t)
  unfold splitOnce at h
  cases hdrop : t.dropWhile (· != sep) with
  | nil =>
    rw [hdrop, List.append_nil] at hcut
    exact hcut ▸ not_mem_takeWhile sep t
  | cons c rest => simp [hdrop] at h

/-- The text is what stands before the first separator, the separator, and what stands behind. -/
theorem splitOnce_spec {sep : Char} {t before after : Text}
    (h : splitOnce sep t = some (before, after)) :
    t = before ++ sep :: after ∧ sep ∉ before := by
  have hcut := List.takeWhile_append_dropWhile (p := (· != sep)) (l := t)
  unfold splitOnce at h
  cases hdrop : t.dropWhile (· != sep) with
  | nil => simp [hdrop] at h
  | cons c rest =>
    have hc := List.head?_dropWhile_not (· != sep) t
    rw [hdrop] at h hc hcut
    cases h
    obtain rfl : c = sep := by simpa using hc
    exact ⟨hcut.symm, not_mem_takeWhile c t⟩

/-! ## Splitting at a text -/

theorem eq_append_of_splitOnceAt {sep t before after : Text}
    (h : splitOnceAt sep t = some (before, after)) : t = before ++ sep ++ after := by
  induction t generalizing before with
  | nil =>
    unfold splitOnceAt at h
    split at h
    · next hsep =>
      cases h
      simp [hsep]
    · cases h
  | cons c t ih =>
    unfold splitOnceAt at h
    split at h
    · next hstart =>
      obtain ⟨u, hu⟩ := List.isPrefixOf_iff_prefix.1 hstart
      rw [← hu, List.drop_left] at h
      cases h
      exact hu.symm
    · obtain ⟨⟨before', after'⟩, hsplit, heq⟩ := Option.map_eq_some_iff.1 h
      cases heq
      rw [ih hsplit]
      simp

theorem prefix_cons_append_iff {sep : Text} (hsep : sep ≠ []) (c : Char) (before after : Text) :
    sep <+: c :: (before ++ sep ++ after) ↔ sep <+: c :: (before ++ sep.dropLast) := by
  have hshort : c :: (before ++ sep.dropLast) <+: c :: (before ++ sep ++ after) := by
    rw [List.prefix_cons_inj, List.append_assoc, List.prefix_append_right_inj]
    exact (List.dropLast_prefix sep).trans (List.prefix_append sep after)
  constructor
  · intro h
    refine List.prefix_of_prefix_length_le h hshort ?_
    have hpos := List.length_pos_of_ne_nil hsep
    simp only [List.length_append, List.length_cons, List.length_dropLast]
    omega
  · intro h
    exact h.trans hshort

/-- A text is split at the first occurrence of the separator: no other one starts before it, not even
one that shares characters with it. -/
theorem splitOnceAt_append {sep before : Text} (hsep : sep ≠ [])
    (h : ¬ sep <:+: before ++ sep.dropLast) (after : Text) :
    splitOnceAt sep (before ++ sep ++ after) = some (before, after) := by
  induction before with
  | nil =>
    obtain ⟨c, rest, rfl⟩ := List.exists_cons_of_ne_nil hsep
    simp [splitOnceAt]
  | cons c before ih =>
    rw [List.cons_append, List.infix_cons_iff, not_or] at h
    have hstart : ¬ sep.isPrefixOf (c :: (before ++ sep ++ after)) = true := by
      rw [List.isPrefixOf_iff_prefix, prefix_cons_append_iff hsep]
      exact h.1
    rw [List.cons_append, List.cons_append, splitOnceAt, if_neg hstart, ih h.2]
    rfl

theorem not_infix_of_splitOnceAt {sep t before after : Text} (hsep : sep ≠ [])
    (h : splitOnceAt sep t = some (before, after)) : ¬ sep <:+: before ++ sep.dropLast := by
  induction t generalizing before with
  | nil => simp [splitOnceAt, hsep] at h
  | cons c t ih =>
    unfold splitOnceAt at h
    split at h
    · cases h
      intro hinfix
      have hlength := hinfix.length_le
      have hpos := List.length_pos_of_ne_nil hsep
      simp only [List.nil_append, List.length_dropLast] at hlength
      omega
    · next hstart =>
      obtain ⟨⟨before', after'⟩, hsplit, heq⟩ := Option.map_eq_some_iff.1 h
      cases heq
      rw [List.isPrefixOf_iff_prefix, eq_append_of_splitOnceAt hsplit,
        prefix_cons_append_iff hsep] at hstart
      rw [List.cons_append, List.infix_cons_iff, not_or]
      exact ⟨hstart, ih hsplit⟩

end Text

end SourceClosure
