import SourceClosure.Proofs.Path.Candidates

/-!
# Stems whose candidates are project paths

A stem that is little more than a suffix, such as `src/.ts` or `..ts`, leaves an odd path when the
suffix is taken off, and the index files below that path, such as `src//index.ts` or `./index.ts`,
are not project paths. Of all other stems the candidates are project paths (`isPlain_iff`), so that
what is looked up and what is registered are spelled alike.
-/

namespace SourceClosure

namespace Path

/-! ## Project paths with something at their end -/

theorem toProject_ofSegments {parts : List Text} (h : ∀ x ∈ parts, IsName x) :
    toProject (ofSegments parts) = ofSegments parts := by
  rw [toProject_eq, segments_ofSegments h]

theorem ofSegments_append_last (parts : List Text) (x t : Text) :
    ofSegments (parts ++ [x ++ t]) = ofSegments (parts ++ [x]) ++ t := by
  cases parts with
  | nil => simp [ofSegments, List.intercalate]
  | cons y parts =>
    have hne : y :: parts ≠ [] := List.cons_ne_nil y parts
    rw [ofSegments_concat hne, ofSegments_concat hne, List.append_assoc, List.cons_append]

theorem IsName.append_suffix {x : Text} (h : IsName x) (s : Suffix) : IsName (x ++ s.text) := by
  have hslash : '/' ∉ s.text := by cases s <;> decide
  have hback : '\\' ∉ s.text := by cases s <;> decide
  refine isName_of_hasSuffix ?_ ?_ (hasSuffix_append_text x s)
  · rw [List.mem_append, not_or]
    exact ⟨h.slash, hslash⟩
  · rw [List.mem_append, not_or]
    exact ⟨h.backslash, hback⟩

theorem isName_indexName : IsName indexName where
  ne_nil := by decide
  ne_here := by decide
  ne_up := by decide
  slash := by decide
  backslash := by decide

/-- A project path with a suffix behind it is a project path. -/
theorem toProject_append_suffix {b : Text} (hb : toProject b = b) (s : Suffix) :
    toProject (b ++ s.text) = b ++ s.text := by
  have hname : ∀ x ∈ segments b, IsName x := fun _ => isName_of_mem_segments
  have hwrite : ofSegments (segments b) = b := by rw [← toProject_eq, hb]
  by_cases hparts : segments b = []
  · rw [hparts] at hwrite
    rw [← hwrite]
    cases s <;> decide
  have hcut := List.dropLast_concat_getLast hparts
  rw [← hwrite, ← hcut, ← ofSegments_append_last]
  refine toProject_ofSegments ?_
  intro x hx
  rcases List.mem_append.1 hx with hx | hx
  · exact hname x (List.dropLast_subset _ hx)
  · rw [List.mem_singleton] at hx
    exact hx ▸ (hname _ (List.getLast_mem hparts)).append_suffix s

/-- The files named by a project path and a suffix are project paths. -/
theorem toProject_of_mem_directForms {b c : Text} (hb : toProject b = b)
    (hc : c ∈ directForms b) : toProject c = c := by
  obtain ⟨s, -, rfl⟩ := List.mem_map.1 hc
  exact toProject_append_suffix hb s

theorem segments_append_name {x : Text} (hx : IsName x) (b : Text) :
    segments (b ++ '/' :: x) = segments b ++ [x] := by
  rw [segments_eq_walk, walk_append_slash, walk_name hx, List.reverse_cons, segments_eq_walk]

/-- A file in a directory is spelled as a project path if the directory is. -/
theorem toProject_append_name_iff {b x : Text} (hne : b ≠ []) (hx : IsName x) :
    toProject (b ++ '/' :: x) = b ++ '/' :: x ↔ toProject b = b := by
  rw [toProject_eq, segments_append_name hx, toProject_eq b]
  by_cases hparts : segments b = []
  · have hsingle : ofSegments ([] ++ [x]) = x := by simp [ofSegments, List.intercalate]
    rw [hparts, hsingle]
    constructor
    · intro h
      have hlength := congrArg List.length h
      rw [List.length_append, List.length_cons] at hlength
      omega
    · intro h
      exact absurd h.symm hne
  · rw [ofSegments_concat hparts]
    exact List.append_left_inj _

theorem toProject_of_mem_indexForms {b c : Text} (hb : toProject b = b) (hne : b ≠ [])
    (hc : c ∈ indexForms b) : toProject c = c :=
  toProject_of_mem_directForms ((toProject_append_name_iff hne isName_indexName).2 hb) hc

/-! ## Plain stems -/

/-- What is left of the stem without its suffix is a project path. -/
def IsPlain (stem : Text) : Prop :=
  toProject (withoutSuffix stem) = withoutSuffix stem

instance (stem : Text) : Decidable (IsPlain stem) :=
  inferInstanceAs (Decidable (_ = _))

/-- The candidates of a plain stem are project paths. -/
theorem IsPlain.toProject_candidate {stem c : Text} (hplain : IsPlain stem)
    (hstem : toProject stem = stem) (hc : c ∈ candidates stem) : toProject c = c := by
  have h := mem_candidates hc
  rw [trimEnd_slash hstem] at h
  rcases h with ⟨rfl, -⟩ | h | ⟨b, hne, hb, h⟩
  · exact hstem
  · exact toProject_of_mem_directForms (by decide) h
  · have hproject : toProject b = b := by
      rcases hb with rfl | rfl
      · exact hstem
      · exact hplain
    rcases h with h | h
    · exact toProject_of_mem_directForms hproject h
    · exact toProject_of_mem_indexForms hproject hne h

/-- The plain stems are those whose candidates are all project paths. -/
theorem isPlain_iff {stem : Text} (hstem : toProject stem = stem) :
    IsPlain stem ↔ ∀ c ∈ candidates stem, toProject c = c := by
  refine ⟨fun hplain c hc => hplain.toProject_candidate hstem hc, fun h => ?_⟩
  unfold IsPlain
  by_cases hbare : withoutSuffix stem = []
  · rw [hbare]
    rfl
  cases hs : hasSuffix stem with
  | false =>
    rwa [withoutSuffix_eq_self hs]
  | true =>
    -- The first index file without the suffix tells what the path before it is.
    have hmem : withoutSuffix stem ++ '/' :: indexName ++ Suffix.ts.text ∈ candidates stem := by
      unfold candidates
      rw [trimEnd_slash hstem]
      simp only [hs, if_true, if_neg hbare]
      refine Text.mem_distinct.2 (List.mem_append_left _ (List.mem_cons_of_mem _ ?_))
      exact List.mem_append_right _ (List.mem_map.2 ⟨.ts, by decide, rfl⟩)
    have hindex := h _ hmem
    rw [List.append_assoc, List.cons_append] at hindex
    exact (toProject_append_name_iff hbare (isName_indexName.append_suffix .ts)).1 hindex

end Path

end SourceClosure
