import SourceClosure.Path.Suffix
import SourceClosure.Proofs.Path.Segments

/-!
# File names

A path that names a file is a directory, written with its slash, followed by a name without any.
The suffix of such a path is the suffix of the name alone, and its project path has the same name
in the directory that the path's directory leads to. So a file reached under an unusual spelling,
such as `./index.ts`, is told apart from others, and its relative imports lead, exactly as under
its project path.
-/

namespace SourceClosure

namespace Path

/-! ## Directory and name -/

/-- The path is written as a directory with its slash, or none at all, and a name in it. -/
structure Splits (path folder name : Text) : Prop where
  eq_append : path = folder ++ name
  folder_slash : folder = [] ∨ folder.getLast? = some '/'
  folder_backslash : '\\' ∉ folder
  name_slash : '/' ∉ name
  name_backslash : '\\' ∉ name

/-- The directory of a list of segments, with its slash. -/
def folderOf (parts : List Text) : Text :=
  if parts = [] then [] else ofSegments parts ++ ['/']

theorem segments_folderOf {parts : List Text} (h : ∀ x ∈ parts, IsName x) :
    segments (folderOf parts) = parts := by
  unfold folderOf
  split
  · next hp => simp [hp, segments_eq_walk]
  · rw [segments_eq_walk, walk_append_slash, walk_nil, walk_ofSegments h]
    simp

/-- Written segments split before the last of them. -/
theorem splits_ofSegments {parts : List Text} {x : Text} (h : ∀ y ∈ parts, IsName y)
    (hx : IsName x) : Splits (ofSegments (parts ++ [x])) (folderOf parts) x where
  eq_append := by
    unfold folderOf
    split
    · next hp => simp [hp, ofSegments, List.intercalate]
    · next hp => rw [ofSegments_concat hp, List.append_assoc, List.singleton_append]
  folder_slash := by
    unfold folderOf
    split
    · exact .inl rfl
    · exact .inr (by simp)
  folder_backslash := by
    unfold folderOf
    split
    · simp
    · simp [backslash_not_mem_ofSegments h]
  name_slash := hx.slash
  name_backslash := hx.backslash

/-- Every path splits, once its backslashes are slashes. -/
theorem exists_splits_slashes (p : Text) : ∃ folder name, Splits (slashes p) folder name := by
  have hback := backslash_not_mem_slashes p
  generalize slashes p = q at hback ⊢
  have hcut : (q.reverse.dropWhile (· != '/')).reverse ++
      (q.reverse.takeWhile (· != '/')).reverse = q := by
    rw [← List.reverse_append, List.takeWhile_append_dropWhile, List.reverse_reverse]
  refine ⟨_, _, hcut.symm, ?_, ?_, ?_, ?_⟩
  · cases hd : q.reverse.dropWhile (· != '/') with
    | nil => exact .inl rfl
    | cons c rest =>
      have hc := List.head?_dropWhile_not (· != '/') q.reverse
      rw [hd] at hc
      simp_all
  · intro h
    apply hback
    rw [← hcut]
    exact List.mem_append_left _ h
  · intro h
    simpa using List.all_eq_true.1 List.all_takeWhile _ (List.mem_reverse.1 h)
  · intro h
    apply hback
    rw [← hcut]
    exact List.mem_append_right _ h

/-- Every project path but the root names a file in a directory. -/
theorem exists_splits {p : Text} (hp : toProject p = p) (hne : p ≠ []) :
    ∃ folder name, Splits p folder name ∧ IsName name := by
  have hname : ∀ x ∈ segments p, IsName x := fun _ => isName_of_mem_segments
  have hparts : segments p ≠ [] := by
    intro h
    rw [toProject_eq, h] at hp
    exact hne hp.symm
  have hcut : (segments p).dropLast ++ [(segments p).getLast hparts] = segments p :=
    List.dropLast_concat_getLast hparts
  have hlast := hname _ (List.getLast_mem hparts)
  refine ⟨folderOf (segments p).dropLast, (segments p).getLast hparts, ?_, hlast⟩
  have hsplits := splits_ofSegments (fun x hx => hname x (List.dropLast_subset _ hx)) hlast
  rwa [hcut, ← toProject_eq, hp] at hsplits

namespace Splits

variable {p folder name : Text}

theorem backslash (h : Splits p folder name) : '\\' ∉ p := by
  rw [h.eq_append, List.mem_append, not_or]
  exact ⟨h.folder_backslash, h.name_backslash⟩

/-- The directory part of the path is what it is written as. -/
theorem directory_eq (h : Splits p folder name) : directory p = folder := by
  have hname : ∀ c ∈ name.reverse, (c != '/') = true := by
    intro c hc
    simp only [bne_iff_ne, ne_eq]
    rintro rfl
    exact h.name_slash (List.mem_reverse.1 hc)
  rw [directory, Text.throughLast, slashes_of_not_mem h.backslash, h.eq_append,
    List.reverse_append, List.dropWhile_append_of_pos hname]
  rcases h.folder_slash with rfl | hlast
  · rfl
  · obtain ⟨f, rfl⟩ := List.getLast?_eq_some_iff.1 hlast
    simp

theorem walk_eq (h : Splits p folder name) (hn : IsName name) :
    walk [] p = name :: walk [] folder := by
  rcases h.folder_slash with hf | hlast
  · rw [h.eq_append, hf, List.nil_append, walk_name hn, walk_nil]
  · obtain ⟨f, hf⟩ := List.getLast?_eq_some_iff.1 hlast
    rw [h.eq_append, hf, List.append_assoc, List.singleton_append, walk_append_slash, walk_name hn,
      walk_append_slash, walk_nil]

/-- The project path has the same name, in the directory that the path's directory leads to. -/
theorem toProject (h : Splits p folder name) (hn : IsName name) :
    Splits (Path.toProject p) (folderOf (segments folder)) name := by
  have hseg : segments p = segments folder ++ [name] := by
    rw [segments_eq_walk, h.walk_eq hn, List.reverse_cons, segments_eq_walk]
  rw [toProject_eq, hseg]
  exact splits_ofSegments (fun _ => isName_of_mem_segments) hn

theorem segments_directory (h : Splits p folder name) (hn : IsName name) :
    segments (directory (Path.toProject p)) = segments (directory p) := by
  rw [(h.toProject hn).directory_eq, h.directory_eq,
    segments_folderOf (fun _ => isName_of_mem_segments)]

end Splits

/-! ## Suffixes -/

/-- A text without a slash at the end of a path lies in the path's name. -/
theorem suffix_append_iff {folder t u : Text} (hu : '/' ∉ u)
    (hf : folder = [] ∨ folder.getLast? = some '/') : u <:+ folder ++ t ↔ u <:+ t := by
  refine ⟨?_, List.suffix_append_of_suffix⟩
  rintro ⟨a, ha⟩
  rcases List.append_eq_append_iff.1 ha with ⟨b, rfl, rfl⟩ | ⟨b, -, rfl⟩
  · -- What reaches beyond the name would end in the slash of the directory.
    cases hb : b.getLast? with
    | none =>
      rw [List.getLast?_eq_none_iff] at hb
      simp [hb]
    | some c =>
      rcases hf with hf | hf
      · simp_all
      · rw [List.getLast?_append, hb] at hf
        cases hf
        exact absurd (List.mem_append_left t (List.mem_of_getLast? hb)) hu
  · exact List.suffix_append b u

theorem lower_append (s t : Text) : Text.lower (s ++ t) = Text.lower s ++ Text.lower t := by
  simp [Text.lower]

/-- The suffix of a path is that of its name. -/
theorem ofPath?_append {folder : Text} (hf : folder = [] ∨ folder.getLast? = some '/')
    (name : Text) : Suffix.ofPath? (folder ++ name) = Suffix.ofPath? name := by
  have hlower : Text.lower folder = [] ∨ (Text.lower folder).getLast? = some '/' := by
    rcases hf with rfl | hf
    · exact .inl rfl
    · exact .inr (by rw [Text.lower, List.getLast?_map, hf]; rfl)
  unfold Suffix.ofPath?
  congr 1
  funext s
  have hs : '/' ∉ s.text := by cases s <;> decide
  rw [Bool.eq_iff_iff, List.isSuffixOf_iff_suffix, List.isSuffixOf_iff_suffix, lower_append]
  exact suffix_append_iff hs hlower

theorem Splits.ofPath?_eq {p folder name : Text} (h : Splits p folder name) :
    Suffix.ofPath? p = Suffix.ofPath? name := by
  rw [h.eq_append, ofPath?_append h.folder_slash]

/-- The project path has the suffix of the path. -/
theorem Splits.ofPath?_toProject {p folder name : Text} (h : Splits p folder name)
    (hn : IsName name) : Suffix.ofPath? (Path.toProject p) = Suffix.ofPath? p := by
  rw [(h.toProject hn).ofPath?_eq, h.ofPath?_eq]

theorem hasSuffix_iff {p : Text} : hasSuffix p = true ↔ ∃ s : Suffix, s.text <:+ Text.lower p := by
  have hall : ∀ s : Suffix, s ∈ Suffix.all := by
    intro s
    cases s <;> decide
  unfold hasSuffix Suffix.ofPath?
  rw [List.find?_isSome]
  constructor
  · rintro ⟨s, -, hs⟩
    exact ⟨s, List.isSuffixOf_iff_suffix.1 hs⟩
  · rintro ⟨s, hs⟩
    exact ⟨s, hall s, List.isSuffixOf_iff_suffix.2 hs⟩

/-- A path with more before it keeps a suffix. -/
theorem hasSuffix_append {q : Text} (h : hasSuffix q = true) (p : Text) :
    hasSuffix (p ++ q) = true := by
  obtain ⟨s, hs⟩ := hasSuffix_iff.1 h
  refine hasSuffix_iff.2 ⟨s, ?_⟩
  rw [lower_append]
  exact List.suffix_append_of_suffix hs

theorem hasSuffix_append_text (p : Text) (s : Suffix) : hasSuffix (p ++ s.text) = true :=
  hasSuffix_append (hasSuffix_iff.2 ⟨s, by cases s <;> decide⟩) p

/-- A text with a suffix but without separators is a name. -/
theorem isName_of_hasSuffix {t : Text} (hs : '/' ∉ t) (hb : '\\' ∉ t) (h : hasSuffix t = true) :
    IsName t := by
  obtain ⟨s, hsuffix⟩ := hasSuffix_iff.1 h
  have hlong : 3 ≤ t.length := by
    have htext : 3 ≤ s.text.length := by cases s <;> decide
    have hle := hsuffix.length_le
    rw [Text.lower, List.length_map] at hle
    omega
  refine ⟨?_, ?_, ?_, hs, hb⟩
  all_goals
    rintro rfl
    exact absurd hlong (by decide)

/-- A suffix has no separators, whatever the case of its letters. -/
theorem separator_not_mem_of_lower {t : Text} {s : Suffix} (h : Text.lower t = s.text) :
    '/' ∉ t ∧ '\\' ∉ t := by
  have hslash : '/' ∉ s.text := by cases s <;> decide
  have hback : '\\' ∉ s.text := by cases s <;> decide
  rw [← h] at hslash hback
  exact ⟨fun hc => hslash (List.mem_map.2 ⟨'/', hc, rfl⟩),
    fun hc => hback (List.mem_map.2 ⟨'\\', hc, rfl⟩)⟩

theorem hasSuffix_slashes {p : Text} (h : hasSuffix p = true) : hasSuffix (slashes p) = true := by
  obtain ⟨s, a, ha⟩ := hasSuffix_iff.1 h
  obtain ⟨b, t, rfl, -, ht⟩ := List.map_eq_append_iff.1 ha.symm
  have hback : '\\' ∉ t := (separator_not_mem_of_lower ht).2
  refine hasSuffix_iff.2 ⟨s, ?_⟩
  rw [slashes_append, slashes_of_not_mem hback, lower_append, ← ht]
  exact List.suffix_append _ _

/-- A path with a suffix names a file. -/
theorem exists_splits_of_hasSuffix {p : Text} (h : hasSuffix p = true) :
    ∃ folder name, Splits (slashes p) folder name ∧ IsName name := by
  obtain ⟨folder, name, hsplits⟩ := exists_splits_slashes p
  refine ⟨folder, name, hsplits, isName_of_hasSuffix hsplits.name_slash hsplits.name_backslash ?_⟩
  rw [hasSuffix, ← hsplits.ofPath?_eq]
  exact hasSuffix_slashes h

/-- A path with a suffix keeps it as a project path. -/
theorem hasSuffix_toProject {p : Text} (h : hasSuffix p = true) :
    hasSuffix (Path.toProject p) = true := by
  obtain ⟨folder, name, hsplits, hname⟩ := exists_splits_of_hasSuffix h
  have hproject : Path.toProject (slashes p) = Path.toProject p := by
    refine toProject_eq_toProject ?_
    rw [segments_eq_walk, segments_eq_walk, walk, walk, slashes_slashes]
  rw [← hproject, hasSuffix, hsplits.ofPath?_toProject hname]
  exact hasSuffix_slashes h

theorem hasSuffix_normalize {p : Text} (h : hasSuffix p = true) :
    hasSuffix (normalize p) = true := by
  have hproject := hasSuffix_toProject h
  rw [toProject_eq] at hproject
  unfold normalize
  split
  · exact hasSuffix_append hproject ['/']
  · exact hproject

/-- What is joined onto a directory keeps its suffix. -/
theorem hasSuffix_join {relative : Text} (h : hasSuffix relative = true) (base : Text) :
    hasSuffix (join base relative) = true := by
  refine hasSuffix_normalize ?_
  unfold combine
  split
  · exact h
  · split
    · exact hasSuffix_append h base
    · rw [← List.singleton_append, ← List.append_assoc]
      exact hasSuffix_append h (base ++ ['/'])

/-! ## Paths of files -/

/-- The path lies in the project, is written with slashes, and has a suffix. -/
structure NamesFile (p : Text) : Prop where
  head : p.head? ≠ some '/'
  backslash : '\\' ∉ p
  suffix : hasSuffix p = true

theorem namesFile_toProject {p : Text} (h : hasSuffix p = true) :
    NamesFile (Path.toProject p) :=
  ⟨head?_toProject p, backslash_not_mem_toProject p, hasSuffix_toProject h⟩

theorem NamesFile.exists_splits {p : Text} (h : NamesFile p) :
    ∃ folder name, Splits p folder name ∧ IsName name := by
  have hsplits := exists_splits_of_hasSuffix h.suffix
  rwa [slashes_of_not_mem h.backslash] at hsplits

/-- The project path of a file has the suffix of the path. -/
theorem NamesFile.ofPath?_toProject {p : Text} (h : NamesFile p) :
    Suffix.ofPath? (Path.toProject p) = Suffix.ofPath? p := by
  obtain ⟨folder, name, hsplits, hname⟩ := h.exists_splits
  exact hsplits.ofPath?_toProject hname

/-! ## Joining onto a directory -/

/-- What a relative path leads to from the directory of a file is a project path. -/
theorem NamesFile.join_eq_toProject {p relative : Text} (h : NamesFile p)
    (hhead : (slashes relative).head? ≠ some '/') :
    join (directory p) relative = toProject (combine (directory p) relative) := by
  obtain ⟨folder, name, hsplits, -⟩ := h.exists_splits
  refine normalize_eq_toProject ?_
  rw [hsplits.directory_eq]
  unfold combine
  split
  · exact hhead
  · next hne =>
    obtain ⟨c, t, rfl⟩ := List.exists_cons_of_ne_nil (not_or.1 hne).1
    have hslashes := slashes_of_not_mem hsplits.folder_backslash
    have hc : c ≠ '/' := by simpa [hsplits.eq_append] using h.head
    split
    · rw [slashes_append, hslashes]
      simpa using hc
    · rw [slashes_append, hslashes]
      simpa using hc

/-- Where a relative path leads from the directory of a file does not depend on how the file is
spelled. -/
theorem NamesFile.join_directory {p relative : Text} (h : NamesFile p)
    (hr : isRooted relative = false) (hhead : (slashes relative).head? ≠ some '/') :
    join (directory (Path.toProject p)) relative = join (directory p) relative := by
  obtain ⟨folder, name, hsplits, hname⟩ := h.exists_splits
  rw [(namesFile_toProject h.suffix).join_eq_toProject hhead, h.join_eq_toProject hhead]
  exact toProject_eq_toProject (segments_combine hr (hsplits.segments_directory hname))

end Path

end SourceClosure
