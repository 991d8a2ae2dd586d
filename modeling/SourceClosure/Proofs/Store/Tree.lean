import Mathlib.Data.Char
import Mathlib.Data.List.Lex
import SourceClosure.Proofs.Path.Below
import SourceClosure.Proofs.Store.Confined
import SourceClosure.Proofs.Text.Cutting

/-!
# Lookups in memory

A tree that was built by inserting files keeps them in strictly ascending order of their paths,
which are project paths. So a file is found by its path alone, and looking at the first file behind a
directory's slash tells whether anything lies below it, for the paths that start alike stand together
(`isFolder_iff`). Files below a directory are told by their segments, and each of them shows in the
directory's listing (`folder_mem_entries`, `file_mem_entries`).
-/

namespace SourceClosure

/-! ## The order of paths -/

namespace Text

theorem before_iff_lt {s t : Text} : before s t = true ↔ s < t := by
  induction s generalizing t with
  | nil => cases t <;> simp [before]
  | cons a s ih =>
    cases t with
    | nil => simp [before]
    | cons b t => simp [before, List.cons_lt_cons_iff, ih]

/-- What stands between a text and one that starts with it starts with it too. -/
theorem prefix_of_between {s g t : Text} (hs : before g s = false)
    (ht : before g (s ++ t) = true) : s <+: g := by
  induction s generalizing g with
  | nil => exact List.nil_prefix
  | cons a s ih =>
    cases g with
    | nil => simp [before] at hs
    | cons b g =>
      simp only [before, Bool.or_eq_false_iff, decide_eq_false_iff_not, not_lt,
        Bool.and_eq_false_iff, beq_eq_false_iff_ne] at hs
      simp only [List.cons_append, before, Bool.or_eq_true, decide_eq_true_eq, Bool.and_eq_true,
        beq_iff_eq] at ht
      obtain ⟨hle, hs⟩ := hs
      obtain ⟨rfl, hbetween⟩ := ht.resolve_left (not_lt_of_ge hle)
      exact (List.prefix_cons_inj b).2 (ih (hs.resolve_left (fun h => h rfl)) hbetween)

theorem not_before_of_prefix {s t : Text} (h : s <+: t) : before t s = false := by
  induction s generalizing t with
  | nil => cases t <;> rfl
  | cons a s ih =>
    obtain ⟨u, rfl⟩ := h
    have htail := ih (List.prefix_append s u)
    simp [before, htail]

end Text

/-! ## Listings -/

theorem folder_mem_addEntry_iff {name : Text} {e : Entry} {entries : List Entry} :
    ⟨name, true⟩ ∈ addEntry e entries ↔ ⟨name, true⟩ ∈ e :: entries := by
  induction entries with
  | nil => simp [addEntry]
  | cons f entries ih =>
    unfold addEntry
    split
    · next heq =>
      cases e
      cases f
      simp only at heq
      subst heq
      simp
      tauto
    · split
      · rfl
      · rw [List.mem_cons, ih]
        simp only [List.mem_cons]
        tauto

/-- A name shows in a listing as a directory if one of the entries is a directory. -/
theorem folder_mem_listing_iff {name : Text} {entries : List Entry} :
    ⟨name, true⟩ ∈ listing entries ↔ ⟨name, true⟩ ∈ entries := by
  have hfold {sorted entries : List Entry} :
      ⟨name, true⟩ ∈ entries.foldl (fun sorted e => addEntry e sorted) sorted ↔
        ⟨name, true⟩ ∈ sorted ∨ ⟨name, true⟩ ∈ entries := by
    induction entries generalizing sorted with
    | nil => simp
    | cons e entries ih =>
      rw [List.foldl_cons, ih, folder_mem_addEntry_iff]
      simp only [List.mem_cons]
      tauto
  rw [listing, hfold]
  simp

/-- No name gets lost when an entry is added. -/
theorem name_mem_addEntry {e f : Entry} {entries : List Entry} (h : e ∈ f :: entries) :
    ∃ g ∈ addEntry f entries, g.name = e.name := by
  induction entries with
  | nil => exact ⟨e, h, rfl⟩
  | cons f' entries ih =>
    unfold addEntry
    split
    · next heq =>
      rcases List.mem_cons.1 h with rfl | h
      · exact ⟨_, List.mem_cons_self, heq.symm⟩
      · rcases List.mem_cons.1 h with rfl | h
        · exact ⟨_, List.mem_cons_self, rfl⟩
        · exact ⟨e, List.mem_cons_of_mem _ h, rfl⟩
    · split
      · exact ⟨e, h, rfl⟩
      · simp only [List.mem_cons] at h ih
        rcases h with rfl | rfl | h
        · obtain ⟨g, hg, hname⟩ := ih (.inl rfl)
          exact ⟨g, List.mem_cons_of_mem _ hg, hname⟩
        · exact ⟨e, List.mem_cons_self, rfl⟩
        · obtain ⟨g, hg, hname⟩ := ih (.inr h)
          exact ⟨g, List.mem_cons_of_mem _ hg, hname⟩

/-- Every name shows in the listing. -/
theorem name_mem_listing {e : Entry} {entries : List Entry} (h : e ∈ entries) :
    ∃ f ∈ listing entries, f.name = e.name := by
  have hfold {sorted entries : List Entry} (h : ∃ f ∈ sorted ++ entries, f.name = e.name) :
      ∃ f ∈ entries.foldl (fun sorted e => addEntry e sorted) sorted, f.name = e.name := by
    induction entries generalizing sorted with
    | nil => simpa using h
    | cons f' entries ih =>
      obtain ⟨f, hf, hname⟩ := h
      refine ih ?_
      rcases List.mem_append.1 hf with hf | hf
      · obtain ⟨g, hg, hg'⟩ := name_mem_addEntry (List.mem_cons_of_mem f' hf)
        exact ⟨g, List.mem_append_left _ hg, hg'.trans hname⟩
      · rcases List.mem_cons.1 hf with rfl | hf
        · obtain ⟨g, hg, hg'⟩ : ∃ g ∈ addEntry f sorted, g.name = f.name :=
            name_mem_addEntry List.mem_cons_self
          exact ⟨g, List.mem_append_left _ hg, hg'.trans hname⟩
        · exact ⟨f, List.mem_append_right _ hf, hname⟩
  exact hfold ⟨e, by simpa using h, rfl⟩

namespace Tree

/-! ## Trees that were built -/

/-- The tree comes of the empty one by inserting files and letting paths fail. -/
inductive IsBuilt : Tree → Prop where
  | empty : IsBuilt {}
  | insert {t : Tree} (path content : Text) : IsBuilt t → IsBuilt (t.insert path content)
  | failOn {t : Tree} (path : Text) : IsBuilt t → IsBuilt (t.failOn path)

theorem isBuilt_ofFiles (files : List (Text × Text)) : IsBuilt (ofFiles files) := by
  have hfold {files : List (Text × Text)} {t : Tree} (ht : IsBuilt t) :
      IsBuilt (files.foldl (fun t file => t.insert file.1 file.2) t) := by
    induction files generalizing t with
    | nil => exact ht
    | cons file files ih => exact ih (ht.insert file.1 file.2)
  exact hfold .empty

/-- The files stand in ascending order of their paths, which are project paths. -/
structure InOrder (t : Tree) : Prop where
  ascending : t.files.Pairwise (fun f g => f.path < g.path)
  normal : ∀ f ∈ t.files, Path.toProject f.path = f.path

theorem pairwise_putFile {files : List StoredFile} (f : StoredFile)
    (h : files.Pairwise (fun f g => f.path < g.path)) :
    (putFile f files).Pairwise (fun f g => f.path < g.path) := by
  induction files with
  | nil => simp [putFile]
  | cons g files ih =>
    obtain ⟨hg, hfiles⟩ := List.pairwise_cons.1 h
    unfold putFile
    split
    · next heq => exact List.pairwise_cons.2 ⟨fun g' hg' => heq ▸ hg g' hg', hfiles⟩
    · next hne =>
      split
      · next hbefore =>
        have hlt := Text.before_iff_lt.1 hbefore
        refine List.pairwise_cons.2 ⟨fun g' hg' => ?_, h⟩
        rcases List.mem_cons.1 hg' with rfl | hg'
        · exact hlt
        · exact hlt.trans (hg g' hg')
      · next hnot =>
        have hlt : g.path < f.path := by
          rw [Text.before_iff_lt, not_lt] at hnot
          exact lt_of_le_of_ne hnot (Ne.symm hne)
        refine List.pairwise_cons.2 ⟨fun g' hg' => ?_, ih hfiles⟩
        rcases eq_or_mem_of_mem_putFile hg' with rfl | hg'
        · exact hlt
        · exact hg g' hg'

theorem IsBuilt.inOrder {t : Tree} (h : IsBuilt t) : t.InOrder := by
  induction h with
  | empty => exact ⟨.nil, by simp⟩
  | @insert t path content _ ih =>
    refine ⟨pairwise_putFile _ ih.ascending, fun f hf => ?_⟩
    rcases eq_or_mem_of_mem_putFile hf with rfl | hf
    · exact Path.toProject_toProject path
    · exact ih.normal f hf
  | failOn path _ ih => exact ⟨ih.ascending, ih.normal⟩

variable {t : Tree}

/-! ## Lookups -/

theorem list_eq_ok_iff {path : Text} {entries : List Entry} :
    t.list path = .ok entries ↔ Path.toProject path ∉ t.failing ∧
      t.isFolder (Path.toProject path) = true ∧ entries = t.entries (Path.toProject path) := by
  unfold list
  dsimp only
  split
  · next hfailing =>
    rw [List.contains_iff_mem] at hfailing
    simp [hfailing]
  · next hfailing =>
    rw [List.contains_iff_mem] at hfailing
    cases t.isFolder (Path.toProject path) <;> simp [hfailing, eq_comm]

namespace InOrder

/-- A file is found by its path. -/
theorem file?_eq_some_iff (h : t.InOrder) {key : Text} {f : StoredFile} :
    t.file? key = some f ↔ f ∈ t.files ∧ f.path = key := by
  constructor
  · intro hfind
    exact ⟨List.mem_of_find?_eq_some hfind, by simpa using List.find?_some hfind⟩
  · rintro ⟨hf, rfl⟩
    obtain ⟨before, after, hfiles⟩ := List.append_of_mem hf
    have hsorted := h.ascending
    rw [hfiles, List.pairwise_append] at hsorted
    refine List.find?_eq_some_iff_append.2 ⟨by simp, before, after, hfiles, fun g hg => ?_⟩
    have hlt := hsorted.2.2 g hg f List.mem_cons_self
    simp [hlt.ne]

theorem read_eq_ok_iff (h : t.InOrder) {path content : Text} :
    t.read path = .ok content ↔ Path.toProject path ∉ t.failing ∧
      ⟨Path.toProject path, content⟩ ∈ t.files := by
  have hfile : ⟨Path.toProject path, content⟩ ∈ t.files ↔
      t.file? (Path.toProject path) = some ⟨Path.toProject path, content⟩ := by
    rw [h.file?_eq_some_iff]
    simp
  rw [hfile]
  unfold read
  dsimp only
  split
  · simp_all
  · cases hf : t.file? (Path.toProject path) with
    | none => simp
    | some f =>
      obtain ⟨-, hpath⟩ := h.file?_eq_some_iff.1 hf
      cases f
      simp_all

/-- The directories are the root and the paths that a file lies below. -/
theorem isFolder_iff (h : t.InOrder) {key : Text} :
    t.isFolder key = true ↔ key = [] ∨ ∃ f ∈ t.files, key ++ ['/'] <+: f.path := by
  unfold isFolder
  rw [Bool.or_eq_true, beq_iff_eq]
  refine or_congr_right ⟨fun hany => ?_, ?_⟩
  · cases hfind : t.files.find? (fun f => !Text.before f.path (key ++ ['/'])) with
    | none => simp [hfind] at hany
    | some f =>
      exact ⟨f, List.mem_of_find?_eq_some hfind, by simpa [hfind] using hany⟩
  · rintro ⟨f, hf, hbelow⟩
    have hat := Text.not_before_of_prefix hbelow
    obtain ⟨g, hfind⟩ := Option.isSome_iff_exists.1 (List.find?_isSome.2 ⟨f, hf, by
      rw [hat]; rfl⟩ : (t.files.find? (fun f => !Text.before f.path (key ++ ['/']))).isSome)
    rw [hfind, Option.any_some, List.isPrefixOf_iff_prefix]
    obtain ⟨hg, before, after, hfiles, hbefore⟩ := List.find?_eq_some_iff_append.1 hfind
    rw [hfiles, List.mem_append] at hf
    rcases hf with hf | hf
    · simpa [hat] using hbefore f hf
    · rcases List.mem_cons.1 hf with rfl | hf
      · exact hbelow
      · -- The first file behind the slash stands between the slash and the file below.
        obtain ⟨x, hx⟩ := hbelow
        have hsorted := h.ascending
        rw [hfiles, List.pairwise_append, List.pairwise_cons] at hsorted
        have hlt := Text.before_iff_lt.2 (hsorted.2.1.1 f hf)
        rw [← hx] at hlt
        exact Text.prefix_of_between (by simpa using hg) hlt

end InOrder

/-! ## What a directory lists -/

theorem entryOf_of_not_mem {name : Text} (h : '/' ∉ name) : entryOf name = ⟨name, false⟩ := by
  rw [entryOf, Text.splitOnce_of_not_mem h]

theorem entryOf_append {name : Text} (h : '/' ∉ name) (rest : Text) :
    entryOf (name ++ '/' :: rest) = ⟨name, true⟩ := by
  rw [entryOf, Text.splitOnce_append h]

theorem below_toProject (path : Text) :
    below (Path.toProject path) = Path.folderOf (Path.segments path) := by
  have hname : ∀ x ∈ Path.segments path, Path.IsName x := fun _ => Path.isName_of_mem_segments
  rw [below, Path.folderOf, Path.toProject_eq]
  simp only [Path.ofSegments_eq_nil_iff hname]

/-- The entry of a file that lies below a directory is made of the rest of its path. -/
theorem entryOf_mem_entries {f : StoredFile} (hf : f ∈ t.files) {path : Text} {rest : List Text}
    (hne : rest ≠ []) (hpath : f.path = Path.ofSegments (Path.segments path ++ rest)) :
    entryOf (Path.ofSegments rest) ∈ t.files.filterMap
      (fun f => (Text.after? (below (Path.toProject path)) f.path).map entryOf) := by
  refine List.mem_filterMap.2 ⟨f, hf, ?_⟩
  rw [hpath, Path.ofSegments_append _ hne, below_toProject, Text.after?]
  simp

/-- A file further below a directory shows the directory that it is in. -/
theorem folder_mem_entries {f : StoredFile} (hf : f ∈ t.files) {path name : Text}
    (hname : Path.IsName name) {rest : List Text} (hne : rest ≠ [])
    (hpath : f.path = Path.ofSegments (Path.segments path ++ name :: rest)) :
    ⟨name, true⟩ ∈ t.entries (Path.toProject path) := by
  obtain ⟨x, l, rfl⟩ := List.exists_cons_of_ne_nil hne
  have hentry := entryOf_mem_entries hf (List.cons_ne_nil _ _) hpath
  rw [Path.ofSegments_cons_cons, entryOf_append hname.slash] at hentry
  exact folder_mem_listing_iff.2 hentry

/-- A file in a directory shows as a file, unless other files lie below its path. -/
theorem InOrder.file_mem_entries (h : t.InOrder) {f : StoredFile} (hf : f ∈ t.files)
    {path name : Text} (hname : Path.IsName name)
    (hpath : f.path = Path.ofSegments (Path.segments path ++ [name]))
    (hleaf : t.isFolder f.path = false) : ⟨name, false⟩ ∈ t.entries (Path.toProject path) := by
  have hsingle : Path.ofSegments [name] = name := by simp [Path.ofSegments, List.intercalate]
  have hentry := entryOf_mem_entries hf (List.cons_ne_nil _ _) hpath
  rw [hsingle, entryOf_of_not_mem hname.slash] at hentry
  obtain ⟨⟨name', isFolder⟩, hlisted, rfl⟩ := name_mem_listing hentry
  cases isFolder with
  | false => exact hlisted
  | true =>
    obtain ⟨g, hg, hafter⟩ := List.mem_filterMap.1 (folder_mem_listing_iff.1 hlisted)
    obtain ⟨rest, hrest, hentryOf⟩ := Option.map_eq_some_iff.1 hafter
    have hbelow : f.path ++ ['/'] <+: g.path := by
      unfold entryOf at hentryOf
      split at hentryOf
      · next before after hsplit =>
        cases hentryOf
        refine ⟨after, ?_⟩
        rw [hpath, Path.ofSegments_append _ (List.cons_ne_nil _ _), hsingle, ← below_toProject,
          Text.eq_append_of_after? hrest, (Text.splitOnce_spec hsplit).1]
        simp
      · cases hentryOf
    rw [h.isFolder_iff.2 (.inr ⟨g, hg, hbelow⟩)] at hleaf
    cases hleaf

end Tree

end SourceClosure
