import SourceClosure.Proofs.Path.Candidates

/-!
# The ranking of candidates

The candidates of a stem are files that bear its name, and behind them index files of directories
that do. Both are listed without repetitions in the order of their suffixes, the stem itself first if
it has one (`candidates_eq`). Forms of different kinds never coincide: behind the stem without its
suffix there is a slash in the one kind and none in the other.
-/

namespace SourceClosure

namespace Path

/-! ## Kinds of candidates -/

/-- A file that bears the name of the stem. -/
inductive IsDirect (stem : Text) : Text → Prop where
  /-- The stem as it stands. -/
  | itself : hasSuffix stem = true → IsDirect stem stem
  /-- The stem, without its suffix, and a suffix that is looked for. -/
  | suffixed {c : Text} : withoutSuffix stem ≠ [] → c ∈ directForms (withoutSuffix stem) →
      IsDirect stem c

/-- An index file of a directory that bears the name of the stem. -/
inductive IsIndex (stem : Text) : Text → Prop where
  /-- In the directory named by the stem without its suffix. -/
  | bare {c : Text} : withoutSuffix stem ≠ [] → c ∈ indexForms (withoutSuffix stem) →
      IsIndex stem c
  /-- In the directory named by the stem as it stands. -/
  | own {c : Text} : hasSuffix stem = true → c ∈ indexForms stem → IsIndex stem c
  /-- In the project's root. -/
  | root {c : Text} : stem = [] → c ∈ directForms indexName → IsIndex stem c

/-! ## Forms differ -/

/-- What is taken off a stem is a suffix in any case of its letters. -/
theorem exists_eq_withoutSuffix_append {stem : Text} (h : hasSuffix stem = true) :
    ∃ ending, stem = withoutSuffix stem ++ ending ∧ ending ≠ [] ∧ '/' ∉ ending := by
  obtain ⟨s, hs⟩ : ∃ s, Suffix.ofPath? stem = some s := Option.isSome_iff_exists.1 h
  have hsuffix := List.find?_some hs
  obtain ⟨a, ha⟩ := List.isSuffixOf_iff_suffix.1 hsuffix
  obtain ⟨before, ending, rfl, -, hending⟩ := List.map_eq_append_iff.1 ha.symm
  have hlength : ending.length = s.text.length := by rw [← hending, List.length_map]
  have hbefore : withoutSuffix (before ++ ending) = before := by
    unfold withoutSuffix
    rw [hs]
    simp [← hlength]
  refine ⟨ending, by rw [hbefore], ?_, (separator_not_mem_of_lower hending).1⟩
  rintro rfl
  exact absurd hlength (by cases s <;> decide)

theorem IsDirect.exists_eq_append {stem c : Text} (h : IsDirect stem c) :
    ∃ ending, c = withoutSuffix stem ++ ending ∧ '/' ∉ ending := by
  cases h with
  | itself hs =>
    obtain ⟨ending, heq, -, hslash⟩ := exists_eq_withoutSuffix_append hs
    exact ⟨ending, heq, hslash⟩
  | suffixed _ hc =>
    obtain ⟨s, -, rfl⟩ := List.mem_map.1 hc
    exact ⟨s.text, rfl, by cases s <;> decide⟩

theorem not_isDirect_nil (c : Text) : ¬ IsDirect [] c := by
  intro h
  cases h with
  | itself hs => exact absurd hs (by decide)
  | suffixed hne _ => exact hne rfl

theorem exists_of_mem_indexForms {b c : Text} (hc : c ∈ indexForms b) :
    ∃ rest, c = b ++ '/' :: rest := by
  obtain ⟨s, -, rfl⟩ := List.mem_map.1 hc
  exact ⟨indexName ++ s.text, by simp⟩

theorem IsIndex.exists_eq_append {stem c : Text} (h : IsIndex stem c) (hne : stem ≠ []) :
    ∃ ending, c = withoutSuffix stem ++ ending ∧ '/' ∈ ending := by
  cases h with
  | bare _ hc =>
    obtain ⟨rest, rfl⟩ := exists_of_mem_indexForms hc
    exact ⟨_, rfl, by simp⟩
  | own hs hc =>
    obtain ⟨rest, rfl⟩ := exists_of_mem_indexForms hc
    obtain ⟨ending, heq, -⟩ := exists_eq_withoutSuffix_append hs
    refine ⟨ending ++ '/' :: rest, ?_, by simp⟩
    rw [← List.append_assoc, ← heq]
  | root hnil _ => exact absurd hnil hne

/-- A file that bears the stem's name is no index file of a directory that does. -/
theorem IsDirect.ne_of_isIndex {stem c d : Text} (hc : IsDirect stem c) (hd : IsIndex stem d) :
    c ≠ d := by
  rintro rfl
  have hne : stem ≠ [] := by
    rintro rfl
    exact not_isDirect_nil c hc
  obtain ⟨ending, rfl, hslash⟩ := hc.exists_eq_append
  obtain ⟨ending', heq, hslash'⟩ := hd.exists_eq_append hne
  rw [List.append_cancel_left heq] at hslash
  exact hslash hslash'

/-- The index files of the one directory are not those of the other. -/
theorem bareIndex_ne_ownIndex {stem c d : Text} (hs : hasSuffix stem = true)
    (hc : c ∈ indexForms (withoutSuffix stem)) (hd : d ∈ indexForms stem) : c ≠ d := by
  rintro rfl
  obtain ⟨ending, heq, hne, hslash⟩ := exists_eq_withoutSuffix_append hs
  obtain ⟨rest, hrest⟩ := exists_of_mem_indexForms hc
  obtain ⟨rest', hrest'⟩ := exists_of_mem_indexForms hd
  obtain ⟨x, ending, rfl⟩ := List.exists_cons_of_ne_nil hne
  have hcut : withoutSuffix stem ++ '/' :: rest =
      withoutSuffix stem ++ (x :: ending ++ '/' :: rest') := by
    rw [← List.append_assoc, ← heq, ← hrest, ← hrest']
  have hhead := List.append_cancel_left hcut
  rw [List.cons_append, List.cons.injEq] at hhead
  exact hslash (hhead.1 ▸ List.mem_cons_self)

theorem nodup_directForms (b : Text) : (directForms b).Nodup := by
  have htexts : (probedSuffixes.map Suffix.text).Nodup := by decide
  have hforms : directForms b = (probedSuffixes.map Suffix.text).map (b ++ ·) := by
    rw [List.map_map]
    rfl
  rw [hforms]
  exact htexts.map (List.append_right_injective b)

/-! ## The list of candidates -/

/-- The candidates that bear the name of the stem, in order. -/
def directGroup (stem : Text) : List Text :=
  (if hasSuffix stem then [stem] else []) ++
    if withoutSuffix stem = [] then []
    else (directForms (withoutSuffix stem)).filter (· != stem)

/-- The candidates in directories that bear the name of the stem, in order. -/
def indexGroup (stem : Text) : List Text :=
  if stem = [] then directForms indexName
  else (if withoutSuffix stem = [] then [] else indexForms (withoutSuffix stem)) ++
    if hasSuffix stem then indexForms stem else []

theorem mem_directGroup {stem c : Text} : c ∈ directGroup stem ↔ IsDirect stem c := by
  unfold directGroup
  constructor
  · intro h
    rcases List.mem_append.1 h with h | h
    · split at h
      · next hs =>
        rw [List.mem_singleton.1 h]
        exact .itself hs
      · cases h
    · split at h
      · cases h
      · next hbare => exact .suffixed hbare (List.mem_filter.1 h).1
  · intro h
    cases h with
    | itself hs => simp [hs]
    | suffixed hbare hc =>
      by_cases heq : c = stem
      · have hs : hasSuffix stem = true := heq ▸ hasSuffix_of_mem_directForms hc
        simp [heq, hs]
      · refine List.mem_append_right _ ?_
        rw [if_neg hbare]
        exact List.mem_filter.2 ⟨hc, by simpa using heq⟩

theorem mem_indexGroup {stem c : Text} : c ∈ indexGroup stem ↔ IsIndex stem c := by
  unfold indexGroup
  constructor
  · intro h
    split at h
    · next hnil => exact .root hnil h
    · rcases List.mem_append.1 h with h | h
      · split at h
        · cases h
        · next hbare => exact .bare hbare h
      · split at h
        · next hs => exact .own hs h
        · cases h
  · intro h
    have hne : ∀ s : Text, hasSuffix s = true → s ≠ [] := by
      rintro s hs rfl
      exact absurd hs (by decide)
    cases h with
    | bare hbare hc =>
      have hstem : stem ≠ [] := by
        rintro rfl
        exact hbare rfl
      rw [if_neg hstem, if_neg hbare]
      exact List.mem_append_left _ hc
    | own hs hc =>
      rw [if_neg (hne stem hs), if_pos hs]
      exact List.mem_append_right _ hc
    | root hnil hc => rwa [if_pos hnil]

theorem nodup_groups (stem : Text) : (directGroup stem ++ indexGroup stem).Nodup := by
  refine List.nodup_append.2 ⟨?_, ?_, ?_⟩
  · unfold directGroup
    refine List.nodup_append.2 ⟨?_, ?_, ?_⟩
    · split <;> simp
    · split
      · simp
      · exact (nodup_directForms _).filter _
    · intro c hc d hd
      split at hc
      · split at hd
        · cases hd
        · rintro rfl
          rw [List.mem_singleton] at hc
          simp [hc] at hd
      · cases hc
  · unfold indexGroup
    split
    · exact nodup_directForms _
    · refine List.nodup_append.2 ⟨?_, ?_, ?_⟩
      · split
        · simp
        · exact nodup_directForms _
      · split
        · exact nodup_directForms _
        · simp
      · intro c hc d hd
        split at hc
        · cases hc
        · split at hd
          · next hs => exact bareIndex_ne_ownIndex hs hc hd
          · cases hd
  · intro c hc d hd
    exact (mem_directGroup.1 hc).ne_of_isIndex (mem_indexGroup.1 hd)

/-- A stem with a suffix is not repeated among the index files. -/
theorem filter_ne_of_isIndex {stem : Text} (hs : hasSuffix stem = true) {cs : List Text}
    (h : ∀ c ∈ cs, IsIndex stem c) : cs.filter (· != stem) = cs := by
  refine List.filter_eq_self.2 (fun c hc => ?_)
  simp only [bne_iff_ne, ne_eq]
  exact ((IsDirect.itself hs).ne_of_isIndex (h c hc)).symm

/-- The candidates are those that bear the stem's name, and behind them the index files. -/
theorem candidates_eq (p : Text) :
    candidates p = directGroup (Text.trimEnd (· == '/') p) ++
      indexGroup (Text.trimEnd (· == '/') p) := by
  unfold candidates
  dsimp only
  generalize Text.trimEnd (· == '/') p = stem
  have hnodup := nodup_groups stem
  by_cases hnil : stem = []
  · subst hnil
    decide
  cases hs : hasSuffix stem with
  | false =>
    have hbare := withoutSuffix_eq_self hs
    have hdirect : directGroup stem = directForms stem := by
      have hfilter : (directForms stem).filter (· != stem) = directForms stem := by
        refine List.filter_eq_self.2 (fun c hc => ?_)
        simp only [bne_iff_ne, ne_eq]
        rintro rfl
        rw [hasSuffix_of_mem_directForms hc] at hs
        cases hs
      simp [directGroup, hs, hbare, hnil, hfilter]
    have hindex : indexGroup stem = indexForms stem := by simp [indexGroup, hs, hbare, hnil]
    rw [hdirect, hindex] at hnodup ⊢
    simp [hnil, Text.distinct_of_nodup hnodup]
  | true =>
    have hown := filter_ne_of_isIndex hs (fun c hc => .own hs hc)
    by_cases hbare : withoutSuffix stem = []
    · have hgroups : directGroup stem ++ indexGroup stem = stem :: indexForms stem := by
        simp [directGroup, indexGroup, hs, hbare, hnil]
      rw [hgroups] at hnodup ⊢
      simp [hbare, Text.distinct_of_nodup hnodup]
    · have hindex := filter_ne_of_isIndex hs (fun c hc => .bare hbare hc)
      have hgroups : directGroup stem ++ indexGroup stem =
          stem :: ((directForms (withoutSuffix stem)).filter (· != stem) ++
            (indexForms (withoutSuffix stem) ++ indexForms stem)) := by
        simp [directGroup, indexGroup, hs, hbare, hnil]
      rw [hgroups] at hnodup ⊢
      simp only [if_true, if_neg hbare, List.cons_append, List.append_assoc]
      rw [Text.distinct_cons, List.filter_append, List.filter_append, hindex, hown,
        Text.distinct_of_nodup (List.nodup_cons.1 hnodup).2]

/-! ## The order of candidates -/

/-- How the candidates of a stem without slashes at its end are ranked. That one candidate comes before
another means that the two are a sublist of the candidates, which are listed once. -/
structure Ranks (stem : Text) (cs : List Text) : Prop where
  nodup : cs.Nodup
  /-- Every candidate bears the stem's name or is an index file, and all of these are candidates. -/
  mem_iff : ∀ c, c ∈ cs ↔ IsDirect stem c ∨ IsIndex stem c
  hasSuffix : ∀ c ∈ cs, hasSuffix c = true
  /-- A stem with a suffix is the best candidate. -/
  first : Path.hasSuffix stem = true → cs.head? = some stem
  direct_index : ∀ c d, IsDirect stem c → IsIndex stem d → [c, d].Sublist cs
  /-- Apart from the stem itself, files that bear its name come in the order of their suffixes. -/
  direct_order : withoutSuffix stem ≠ [] →
    ((directForms (withoutSuffix stem)).filter (· != stem)).Sublist cs
  bare_order : withoutSuffix stem ≠ [] → (indexForms (withoutSuffix stem)).Sublist cs
  own_order : Path.hasSuffix stem = true → (indexForms stem).Sublist cs
  bare_own : withoutSuffix stem ≠ [] → Path.hasSuffix stem = true →
    ∀ c ∈ indexForms (withoutSuffix stem), ∀ d ∈ indexForms stem, [c, d].Sublist cs
  root : stem = [] → cs = directForms indexName
  only_suffix : Path.hasSuffix stem = true → withoutSuffix stem = [] → cs = stem :: indexForms stem

theorem sublist_pair {cs ds : List Text} {c d : Text} (hc : c ∈ cs) (hd : d ∈ ds) :
    [c, d].Sublist (cs ++ ds) :=
  (List.singleton_sublist.2 hc).append (List.singleton_sublist.2 hd)

theorem ranks_candidates (p : Text) :
    Ranks (Text.trimEnd (· == '/') p) (candidates p) := by
  have hsuffix : ∀ c ∈ candidates p, Path.hasSuffix c = true :=
    fun _ => hasSuffix_of_mem_candidates
  rw [candidates_eq] at hsuffix ⊢
  generalize Text.trimEnd (· == '/') p = stem at hsuffix ⊢
  have hne : Path.hasSuffix stem = true → stem ≠ [] := by
    rintro hs rfl
    exact absurd hs (by decide)
  have hbarene : withoutSuffix stem ≠ [] → stem ≠ [] := by
    rintro hbare rfl
    exact hbare rfl
  have hindex : (indexGroup stem).Sublist (directGroup stem ++ indexGroup stem) :=
    List.sublist_append_right _ _
  refine ⟨nodup_groups stem, ?_, hsuffix, ?_, ?_, ?_, ?_, ?_, ?_, ?_, ?_⟩
  · intro c
    rw [List.mem_append, mem_directGroup, mem_indexGroup]
  · intro hs
    simp [directGroup, hs]
  · intro c d hc hd
    exact sublist_pair (mem_directGroup.2 hc) (mem_indexGroup.2 hd)
  · intro hbare
    refine List.Sublist.trans ?_ (List.sublist_append_left _ _)
    rw [directGroup, if_neg hbare]
    exact List.sublist_append_right _ _
  · intro hbare
    refine List.Sublist.trans ?_ hindex
    rw [indexGroup, if_neg (hbarene hbare), if_neg hbare]
    exact List.sublist_append_left _ _
  · intro hs
    refine List.Sublist.trans ?_ hindex
    rw [indexGroup, if_neg (hne hs), if_pos hs]
    exact List.sublist_append_right _ _
  · intro hbare hs c hc d hd
    refine List.Sublist.trans ?_ hindex
    rw [indexGroup, if_neg (hne hs), if_neg hbare, if_pos hs]
    exact sublist_pair hc hd
  · rintro rfl
    decide
  · intro hs hbare
    simp [directGroup, indexGroup, hs, hbare, hne hs]

end Path

end SourceClosure
