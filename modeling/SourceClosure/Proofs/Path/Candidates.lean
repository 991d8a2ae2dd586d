import SourceClosure.Path.Candidates
import SourceClosure.Proofs.Path.FileName
import SourceClosure.Proofs.Text.Distinct

/-!
# Candidates of a stem

The candidates of a project path all name files of the project: they have a suffix, and they do
not start with a slash. They are not all in normal form, as `./index.ts` among those of `..ts`
shows. A project path that has a suffix is the first of its own candidates, so a file that was
found before is found again under its own path.
-/

namespace SourceClosure

namespace Path

/-! ## The stem itself -/

theorem trimEnd_slash {p : Text} (hp : toProject p = p) : Text.trimEnd (· == '/') p = p := by
  by_cases hne : p = []
  · rw [hne]
    rfl
  · obtain ⟨folder, name, hsplits, hname⟩ := exists_splits hp hne
    obtain ⟨c, t, ht⟩ : ∃ c t, p.reverse = c :: t :=
      List.exists_cons_of_ne_nil (by simpa using hne)
    have hc : c ∈ name := by
      obtain ⟨d, u, hu⟩ : ∃ d u, name.reverse = d :: u :=
        List.exists_cons_of_ne_nil (by simpa using hname.ne_nil)
      rw [hsplits.eq_append, List.reverse_append, hu, List.cons_append, List.cons.injEq] at ht
      rw [← List.mem_reverse, hu, ← ht.1]
      exact List.mem_cons_self
    have hslash : c ≠ '/' := fun h => hname.slash (h ▸ hc)
    rw [Text.trimEnd, ht, List.dropWhile_cons, if_neg (by simpa using hslash), ← ht,
      List.reverse_reverse]

/-- A project path with a suffix is the best of its own candidates. -/
theorem find?_candidates_self {p : Text} {q : Text → Bool} (hp : toProject p = p)
    (hs : hasSuffix p = true) (hq : q p = true) : (candidates p).find? q = some p := by
  unfold candidates
  rw [trimEnd_slash hp]
  simp only [hs, if_true]
  rw [Text.find?_distinct, List.cons_append, List.find?_cons, hq]

/-! ## Candidates name files -/

theorem withoutSuffix_isPrefix (p : Text) : withoutSuffix p <+: p := by
  unfold withoutSuffix
  split
  · exact List.take_prefix _ p
  · exact List.prefix_refl p

theorem withoutSuffix_eq_self {p : Text} (h : hasSuffix p = false) : withoutSuffix p = p := by
  have hnone : Suffix.ofPath? p = none := by simpa [hasSuffix] using h
  rw [withoutSuffix, hnone]

/-- A candidate is the stem itself, or a form of the root's index, or a form of the stem with or
without its suffix. -/
theorem mem_candidates {p c : Text} (hc : c ∈ candidates p) :
    (c = Text.trimEnd (· == '/') p ∧ hasSuffix c = true) ∨ c ∈ directForms indexName ∨
      ∃ b, b ≠ [] ∧
        (b = Text.trimEnd (· == '/') p ∨ b = withoutSuffix (Text.trimEnd (· == '/') p)) ∧
        (c ∈ directForms b ∨ c ∈ indexForms b) := by
  unfold candidates at hc
  dsimp only at hc
  generalize Text.trimEnd (· == '/') p = stem at hc ⊢
  split at hc
  · next hs =>
    have hne : stem ≠ [] := by
      rintro rfl
      exact absurd hs (by decide)
    have hmem := Text.mem_distinct.1 hc
    rw [List.mem_append, List.mem_cons] at hmem
    rcases hmem with (rfl | hmem) | hmem
    · exact .inl ⟨rfl, hs⟩
    · split at hmem
      · cases hmem
      · next hb => exact .inr (.inr ⟨_, hb, .inr rfl, List.mem_append.1 hmem⟩)
    · exact .inr (.inr ⟨stem, hne, .inl rfl, .inr hmem⟩)
  · split at hc
    · exact .inr (.inl hc)
    · next hne =>
      exact .inr (.inr ⟨stem, hne, .inl rfl, List.mem_append.1 (Text.mem_distinct.1 hc)⟩)

theorem hasSuffix_of_mem_directForms {b c : Text} (hc : c ∈ directForms b) :
    hasSuffix c = true := by
  obtain ⟨s, -, rfl⟩ := List.mem_map.1 hc
  exact hasSuffix_append_text b s

theorem hasSuffix_of_mem_candidates {p c : Text} (hc : c ∈ candidates p) :
    hasSuffix c = true := by
  rcases mem_candidates hc with ⟨-, h⟩ | h | ⟨b, -, -, h | h⟩
  · exact h
  · exact hasSuffix_of_mem_directForms h
  · exact hasSuffix_of_mem_directForms h
  · exact hasSuffix_of_mem_directForms h

theorem head?_append_of_ne_nil {b : Text} (hne : b ≠ []) (hhead : b.head? ≠ some '/') (t : Text) :
    (b ++ t).head? ≠ some '/' := by
  obtain ⟨d, u, rfl⟩ := List.exists_cons_of_ne_nil hne
  simpa using hhead

theorem namesFile_of_mem_directForms {b c : Text} (hne : b ≠ []) (hhead : b.head? ≠ some '/')
    (hback : '\\' ∉ b) (hc : c ∈ directForms b) : NamesFile c := by
  have hsuffix := hasSuffix_of_mem_directForms hc
  obtain ⟨s, -, rfl⟩ := List.mem_map.1 hc
  have htext : '\\' ∉ s.text := by cases s <;> decide
  refine ⟨head?_append_of_ne_nil hne hhead _, ?_, hsuffix⟩
  rw [List.mem_append, not_or]
  exact ⟨hback, htext⟩

/-- Every candidate of a project path names a file of the project. -/
theorem namesFile_of_mem_candidates {p c : Text} (hp : toProject p = p)
    (hc : c ∈ candidates p) : NamesFile c := by
  have hhead : p.head? ≠ some '/' := hp ▸ head?_toProject p
  have hback : '\\' ∉ p := hp ▸ backslash_not_mem_toProject p
  have h := mem_candidates hc
  rw [trimEnd_slash hp] at h
  rcases h with ⟨rfl, hs⟩ | h | ⟨b, hne, hb, h⟩
  · exact ⟨hhead, hback, hs⟩
  · exact namesFile_of_mem_directForms (by decide) (by decide) (by decide) h
  · have hprefix : b <+: p := by
      rcases hb with rfl | rfl
      · exact List.prefix_refl _
      · exact withoutSuffix_isPrefix p
    obtain ⟨t, rfl⟩ := hprefix
    have hbhead : b.head? ≠ some '/' := by
      obtain ⟨d, u, rfl⟩ := List.exists_cons_of_ne_nil hne
      simpa using hhead
    have hbback : '\\' ∉ b := fun hmem => hback (List.mem_append_left t hmem)
    rcases h with h | h
    · exact namesFile_of_mem_directForms hne hbhead hbback h
    · have hindex : '\\' ∉ '/' :: indexName := by decide
      refine namesFile_of_mem_directForms (by simp) (head?_append_of_ne_nil hne hbhead _) ?_ h
      rw [List.mem_append, not_or]
      exact ⟨hbback, hindex⟩

end Path

end SourceClosure
