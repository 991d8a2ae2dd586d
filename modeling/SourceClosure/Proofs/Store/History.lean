import Mathlib.Data.List.Nodup
import SourceClosure.Proofs.Store.Names

/-!
# Trees follow their history

A tree comes of a list of changes: files are put under paths, and paths are marked to fail. This
module says what the changes alone call for (`Store.Follows`): which directories there are, what they
list, what is there and what the files hold. A tree does as its history says (`Tree.follows_history`),
although it lists, looks up and searches behind a slash by three different walks over its files.
-/

namespace SourceClosure

/-! ## Histories -/

/-- A change to a project in memory. -/
inductive TreeChange where
  /-- A file is put under a path. -/
  | insert (path content : Text)
  /-- A path is marked to fail. -/
  | failOn (path : Text)
  deriving DecidableEq, Repr

namespace Tree

/-- The tree after a change. -/
def apply (t : Tree) : TreeChange → Tree
  | .insert path content => t.insert path content
  | .failOn path => t.failOn path

/-- The tree that comes of the empty one by changes, one after the other. -/
def after (changes : List TreeChange) : Tree :=
  changes.foldl apply {}

@[simp] theorem after_concat (changes : List TreeChange) (change : TreeChange) :
    after (changes ++ [change]) = (after changes).apply change := by
  simp [after]

end Tree

namespace TreeChange

/-- A file was put under the project path. -/
def Stored (changes : List TreeChange) (key : Text) : Prop :=
  ∃ path content, insert path content ∈ changes ∧ Path.toProject path = key

/-- The project path was marked to fail. -/
def Failing (changes : List TreeChange) (key : Text) : Prop :=
  ∃ path, failOn path ∈ changes ∧ Path.toProject path = key

/-- A file was put somewhere below the project path. -/
def StoredBelow (changes : List TreeChange) (key : Text) : Prop :=
  ∃ stored, Stored changes stored ∧ key ++ ['/'] <+: stored

/-- The content is the one that was put under the project path last. -/
def StoredLast (changes : List TreeChange) (key content : Text) : Prop :=
  ∃ earlier path later, changes = earlier ++ insert path content :: later ∧
    Path.toProject path = key ∧ ¬ Stored later key

end TreeChange

open TreeChange

/-- The answers of a store are those that a history calls for. What a directory lists is told by the
paths of its children: `Tree.below key ++ name` is the child of `key` by a name. -/
structure Store.Follows (files : Store) (changes : List TreeChange) : Prop where
  list_ok_iff (path : Text) : ¬ Failing changes (Path.toProject path) →
    ((∃ entries, files.list path = .ok entries) ↔
      Path.toProject path = [] ∨ StoredBelow changes (Path.toProject path))
  ascending (path : Text) (entries : List Entry) : files.list path = .ok entries →
    entries.Pairwise (fun e f => e.name < f.name)
  /-- The names that are listed lead one step down. -/
  slash_not_mem (path : Text) (entries : List Entry) : files.list path = .ok entries →
    ∀ e ∈ entries, '/' ∉ e.name
  folder_mem_iff (path : Text) (entries : List Entry) : files.list path = .ok entries →
    ∀ name, '/' ∉ name → (⟨name, true⟩ ∈ entries ↔
      StoredBelow changes (Tree.below (Path.toProject path) ++ name))
  file_mem_iff (path : Text) (entries : List Entry) : files.list path = .ok entries →
    ∀ name, '/' ∉ name → (⟨name, false⟩ ∈ entries ↔
      Stored changes (Tree.below (Path.toProject path) ++ name) ∧
        ¬ StoredBelow changes (Tree.below (Path.toProject path) ++ name))
  /-- The file under the empty path is a file without a name at the root, and nothing else is without
  a name. -/
  nameless_mem_iff (path : Text) (entries : List Entry) : files.list path = .ok entries →
    ∀ isFolder, (⟨[], isFolder⟩ ∈ entries ↔
      Path.toProject path = [] ∧ isFolder = false ∧ Stored changes [])
  present_iff (path : Text) : ¬ Failing changes (Path.toProject path) →
    (files.present path = true ↔
      Stored changes (Path.toProject path) ∨ ∃ entries, files.list path = .ok entries)
  isFile_iff (path : Text) : files.isFile path = true ↔ Stored changes (Path.toProject path)
  read_ok_iff (path content : Text) : ¬ Failing changes (Path.toProject path) →
    (files.read path = .ok content ↔ StoredLast changes (Path.toProject path) content)

/-! ## What is stored -/

namespace TreeChange

variable {changes : List TreeChange} {key content : Text}

theorem stored_iff : Stored changes key ↔ ∃ content, StoredLast changes key content := by
  constructor
  · intro h
    induction changes with
    | nil => obtain ⟨_, _, hmem, _⟩ := h; cases hmem
    | cons change later ih =>
      by_cases hlater : Stored later key
      · obtain ⟨content, earlier, path, later, rfl, hpath, hlast⟩ := ih hlater
        exact ⟨content, change :: earlier, path, later, rfl, hpath, hlast⟩
      · obtain ⟨path, content, hmem, hpath⟩ := h
        rcases List.mem_cons.1 hmem with rfl | hmem
        · exact ⟨content, [], path, later, rfl, hpath, hlater⟩
        · exact absurd ⟨path, content, hmem, hpath⟩ hlater
  · rintro ⟨content, earlier, path, later, rfl, hpath, -⟩
    exact ⟨path, content, by simp, hpath⟩

theorem stored_append_iff {later : List TreeChange} :
    Stored (changes ++ later) key ↔ Stored changes key ∨ Stored later key := by
  simp only [Stored, List.mem_append, or_and_right, exists_or]

/-- The last change decides if it is about the path, and else the changes before it do. -/
theorem storedLast_concat_iff {change : TreeChange} :
    StoredLast (changes ++ [change]) key content ↔
      (∃ path, change = insert path content ∧ Path.toProject path = key) ∨
        (¬ Stored [change] key ∧ StoredLast changes key content) := by
  constructor
  · rintro ⟨earlier, path, later, heq, hpath, hlater⟩
    rcases List.eq_nil_or_concat later with rfl | ⟨later, last, rfl⟩
    · obtain ⟨-, hlast⟩ := List.append_inj' heq rfl
      cases hlast
      exact .inl ⟨path, rfl, hpath⟩
    · rw [List.concat_eq_append, ← List.cons_append, ← List.append_assoc] at heq
      obtain ⟨rfl, hlast⟩ := List.append_inj' heq rfl
      cases hlast
      rw [List.concat_eq_append, stored_append_iff, not_or] at hlater
      exact .inr ⟨hlater.2, earlier, path, later, rfl, hpath, hlater.1⟩
  · rintro (⟨path, rfl, hpath⟩ | ⟨hchange, earlier, path, later, rfl, hpath, hlater⟩)
    · exact ⟨changes, path, [], rfl, hpath, fun ⟨_, _, hmem, _⟩ => nomatch hmem⟩
    · refine ⟨earlier, path, later ++ [change], by simp, hpath, ?_⟩
      rw [stored_append_iff]
      exact not_or.2 ⟨hlater, hchange⟩

theorem storedLast_concat_insert_iff {path content' : Text} :
    StoredLast (changes ++ [insert path content']) key content ↔
      (Path.toProject path = key ∧ content' = content) ∨
        (Path.toProject path ≠ key ∧ StoredLast changes key content) := by
  rw [storedLast_concat_iff]
  simp [Stored, and_comm]

theorem storedLast_concat_failOn_iff {path : Text} :
    StoredLast (changes ++ [failOn path]) key content ↔ StoredLast changes key content := by
  rw [storedLast_concat_iff]
  simp [Stored]

theorem failing_concat_insert_iff {path content' : Text} :
    Failing (changes ++ [insert path content']) key ↔ Failing changes key := by
  simp [Failing]

theorem failing_concat_failOn_iff {path : Text} :
    Failing (changes ++ [failOn path]) key ↔ Path.toProject path = key ∨ Failing changes key := by
  simp only [Failing, List.mem_append, List.mem_singleton, failOn.injEq, or_and_right, exists_or,
    exists_eq_left]
  exact or_comm

end TreeChange

namespace Tree

/-! ## What a tree holds -/

/-- A file replaces the one of its path and leaves the others. -/
theorem mem_putFile_iff {f g : StoredFile} {files : List StoredFile}
    (h : files.Pairwise (fun f g => f.path < g.path)) :
    g ∈ putFile f files ↔ g = f ∨ (g ∈ files ∧ g.path ≠ f.path) := by
  induction files with
  | nil => simp [putFile]
  | cons f' files ih =>
    obtain ⟨hf', hfiles⟩ := List.pairwise_cons.1 h
    unfold putFile
    split
    · next heq =>
      have hne : ∀ g ∈ files, g.path ≠ f.path := fun g hg => heq ▸ (hf' g hg).ne'
      simp only [List.mem_cons]
      constructor
      · rintro (rfl | hg)
        · exact .inl rfl
        · exact .inr ⟨.inr hg, hne g hg⟩
      · rintro (rfl | ⟨rfl | hg, hpath⟩)
        · exact .inl rfl
        · exact absurd heq.symm hpath
        · exact .inr hg
    · next hne =>
      split
      · next hbefore =>
        have hlt := Text.before_iff_lt.1 hbefore
        have hothers : ∀ g ∈ f' :: files, g.path ≠ f.path := by
          intro g hg
          rcases List.mem_cons.1 hg with rfl | hg
          · exact Ne.symm hne
          · exact (hlt.trans (hf' g hg)).ne'
        rw [List.mem_cons]
        exact or_congr_right ⟨fun hg => ⟨hg, hothers g hg⟩, And.left⟩
      · rw [List.mem_cons, ih hfiles, List.mem_cons]
        constructor
        · rintro (rfl | rfl | ⟨hg, hpath⟩)
          · exact .inr ⟨.inl rfl, Ne.symm hne⟩
          · exact .inl rfl
          · exact .inr ⟨.inr hg, hpath⟩
        · rintro (rfl | ⟨rfl | hg, hpath⟩)
          · exact .inr (.inl rfl)
          · exact .inl rfl
          · exact .inr (.inr ⟨hg, hpath⟩)

theorem isBuilt_after (changes : List TreeChange) : (after changes).IsBuilt := by
  induction changes using List.reverseRecOn with
  | nil => exact .empty
  | append_singleton changes change ih =>
    rw [after_concat]
    cases change with
    | insert path content => exact ih.insert path content
    | failOn path => exact ih.failOn path

variable {changes : List TreeChange}

/-- A tree holds what was put under each path last. -/
theorem mem_files_after_iff {key content : Text} :
    ⟨key, content⟩ ∈ (after changes).files ↔ StoredLast changes key content := by
  induction changes using List.reverseRecOn with
  | nil =>
    constructor
    · intro h
      cases h
    · rintro ⟨earlier, path, later, heq, -⟩
      simp at heq
  | append_singleton changes change ih =>
    rw [after_concat]
    cases change with
    | insert path content' =>
      have hsorted := (isBuilt_after changes).inOrder.ascending
      rw [storedLast_concat_insert_iff, apply, Tree.insert, mem_putFile_iff hsorted, ih]
      simp only [StoredFile.mk.injEq, eq_comm (a := key), eq_comm (a := content), ne_eq]
      exact or_congr_right and_comm
    | failOn path => rw [storedLast_concat_failOn_iff, apply, ← ih, failOn]

theorem stored_iff_exists_mem {key : Text} :
    Stored changes key ↔ ∃ f ∈ (after changes).files, f.path = key := by
  rw [stored_iff]
  constructor
  · rintro ⟨content, hlast⟩
    exact ⟨_, mem_files_after_iff.2 hlast, rfl⟩
  · rintro ⟨⟨path, content⟩, hf, rfl⟩
    exact ⟨content, mem_files_after_iff.1 hf⟩

theorem storedBelow_iff_exists_mem {key : Text} :
    StoredBelow changes key ↔ ∃ f ∈ (after changes).files, key ++ ['/'] <+: f.path := by
  simp only [StoredBelow, stored_iff_exists_mem]
  constructor
  · rintro ⟨_, ⟨f, hf, rfl⟩, hbelow⟩
    exact ⟨f, hf, hbelow⟩
  · rintro ⟨f, hf, hbelow⟩
    exact ⟨f.path, ⟨f, hf, rfl⟩, hbelow⟩

theorem mem_failing_after_iff {key : Text} :
    key ∈ (after changes).failing ↔ Failing changes key := by
  induction changes using List.reverseRecOn with
  | nil => simp [after, Failing]
  | append_singleton changes change ih =>
    rw [after_concat]
    cases change with
    | insert path content => rw [failing_concat_insert_iff, apply, ← ih, Tree.insert]
    | failOn path =>
      rw [failing_concat_failOn_iff, apply, failOn, List.mem_cons, ih, eq_comm]

/-! ## Lookups -/

theorem isFolder_after_iff {key : Text} :
    (after changes).isFolder key = true ↔ key = [] ∨ StoredBelow changes key := by
  rw [(isBuilt_after changes).inOrder.isFolder_iff, storedBelow_iff_exists_mem]

/-- Looking at the first file behind a directory's slash comes to the same as looking at all of
them. -/
theorem isFolder_eq_any {t : Tree} (h : t.InOrder) (key : Text) :
    t.isFolder key = (key == [] || t.files.any (fun f => (key ++ ['/']).isPrefixOf f.path)) := by
  rw [Bool.eq_iff_iff, h.isFolder_iff]
  simp

theorem isSome_file?_after_iff {key : Text} :
    ((after changes).file? key).isSome = true ↔ Stored changes key := by
  rw [stored_iff_exists_mem, file?, List.find?_isSome]
  simp

/-! ## What a directory lists -/

theorem entryOf_eq_folder_iff {name rest : Text} (h : '/' ∉ name) :
    entryOf rest = ⟨name, true⟩ ↔ name ++ ['/'] <+: rest := by
  constructor
  · intro hentry
    unfold entryOf at hentry
    split at hentry
    · next before behind hsplit =>
      cases hentry
      obtain ⟨rfl, -⟩ := Text.splitOnce_spec hsplit
      exact ⟨behind, by simp⟩
    · cases hentry
  · rintro ⟨behind, rfl⟩
    rw [List.append_assoc, List.singleton_append, entryOf_append h]

theorem entryOf_eq_file_iff {name rest : Text} (h : '/' ∉ name) :
    entryOf rest = ⟨name, false⟩ ↔ rest = name := by
  constructor
  · intro hentry
    unfold entryOf at hentry
    split at hentry <;> cases hentry
    rfl
  · rintro rfl
    exact entryOf_of_not_mem h

variable {t : Tree} {key name : Text}

/-- The entries before they are sorted, by the paths of the files that they come from. -/
theorem mem_filterMap_entryOf_iff {e : Entry} :
    e ∈ t.files.filterMap (fun f => (Text.after? (below key) f.path).map entryOf) ↔
      ∃ f ∈ t.files, ∃ rest, f.path = below key ++ rest ∧ entryOf rest = e := by
  simp only [List.mem_filterMap, Option.map_eq_some_iff, Text.after?_eq_some_iff]

/-- A directory is listed if files lie below it. -/
theorem folder_mem_entries_iff (h : '/' ∉ name) :
    ⟨name, true⟩ ∈ t.entries key ↔
      ∃ f ∈ t.files, (below key ++ name) ++ ['/'] <+: f.path := by
  rw [entries, folder_mem_listing_iff, mem_filterMap_entryOf_iff]
  refine exists_congr (fun f => and_congr_right (fun _ => ?_))
  constructor
  · rintro ⟨rest, hpath, hentry⟩
    rw [hpath, List.append_assoc, List.prefix_append_right_inj]
    exact (entryOf_eq_folder_iff h).1 hentry
  · rintro ⟨behind, hpath⟩
    refine ⟨name ++ ['/'] ++ behind, by rw [← hpath]; simp, ?_⟩
    exact (entryOf_eq_folder_iff h).2 (List.prefix_append _ _)

/-- A name is listed once. -/
theorem eq_of_mem_listing {e f : Entry} {es : List Entry} (he : e ∈ listing es)
    (hf : f ∈ listing es) (hname : e.name = f.name) : e = f := by
  have hnames : ((listing es).map Entry.name).Nodup :=
    List.pairwise_map.2 ((pairwise_listing es).imp (fun hlt => hlt.ne))
  exact List.inj_on_of_nodup_map hnames he hf hname

/-- A file is listed as one if no files lie below it. -/
theorem file_mem_entries_iff (h : '/' ∉ name) :
    ⟨name, false⟩ ∈ t.entries key ↔ (∃ f ∈ t.files, f.path = below key ++ name) ∧
      ¬ ∃ f ∈ t.files, (below key ++ name) ++ ['/'] <+: f.path := by
  rw [← folder_mem_entries_iff h]
  have hfile : ⟨name, false⟩ ∈ t.files.filterMap
      (fun f => (Text.after? (below key) f.path).map entryOf) ↔
      ∃ f ∈ t.files, f.path = below key ++ name := by
    simp only [mem_filterMap_entryOf_iff, entryOf_eq_file_iff h, exists_eq_right]
  constructor
  · intro hlisted
    have hnot : ⟨name, true⟩ ∉ t.entries key := fun hfolder =>
      absurd (eq_of_mem_listing hlisted hfolder rfl) (by simp)
    refine ⟨?_, hnot⟩
    obtain ⟨⟨name', isFolder⟩, hentry, rfl⟩ := exists_of_mem_listing hlisted
    cases isFolder with
    | false => exact hfile.1 hentry
    | true => exact absurd (folder_mem_listing_iff.2 hentry) hnot
  · rintro ⟨hpath, hnot⟩
    obtain ⟨⟨name', isFolder⟩, hlisted, rfl⟩ := name_mem_listing (hfile.2 hpath)
    cases isFolder with
    | false => exact hlisted
    | true => exact absurd hlisted hnot

/-! ## Main result -/

/-- Nothing but the file under the empty path is listed without a name. -/
theorem nameless_mem_entries_iff (h : t.InOrder) {isFolder : Bool} :
    ⟨[], isFolder⟩ ∈ t.entries key ↔
      key = [] ∧ isFolder = false ∧ ∃ f ∈ t.files, f.path = [] := by
  constructor
  · intro hlisted
    obtain ⟨-, rfl⟩ : ([] : Text) = [] ∧ isFolder = false :=
      (h.isName_of_mem_entries hlisted).resolve_left (fun hname => hname.ne_nil rfl)
    obtain ⟨⟨f, hf, hpath⟩, -⟩ := (file_mem_entries_iff (by simp)).1 hlisted
    rw [List.append_nil] at hpath
    by_cases hkey : key = []
    · subst hkey
      exact ⟨rfl, rfl, f, hf, hpath⟩
    · -- A project path does not end in a slash.
      have htrim := Path.trimEnd_slash (h.normal f hf)
      rw [hpath, below, if_neg hkey] at htrim
      have hlast : Text.trimEnd (· == '/') (key ++ ['/']) = Text.trimEnd (· == '/') key := by
        simp [Text.trimEnd]
      have hlength := ((List.dropWhile_sublist (p := (· == '/')) (l := key.reverse)).length_le)
      have hsame := congrArg List.length (hlast.symm.trans htrim)
      simp only [Text.trimEnd, List.length_reverse, List.length_append, List.length_singleton]
        at hlength hsame
      omega
  · rintro ⟨rfl, rfl, f, hf, hpath⟩
    refine (file_mem_entries_iff (by simp)).2 ⟨⟨f, hf, hpath⟩, ?_⟩
    rintro ⟨g, hg, behind, hslash⟩
    exact Path.head?_toProject g.path (by rw [h.normal g hg, ← hslash]; rfl)

/-- A tree answers as its history calls for, and looking at the first path behind a directory's slash
tells the same as looking at all paths. -/
theorem follows_history (changes : List TreeChange) :
    (after changes).store.Follows changes ∧ ∀ key, (after changes).isFolder key =
      (key == [] || (after changes).files.any (fun f => (key ++ ['/']).isPrefixOf f.path)) := by
  have horder := (isBuilt_after changes).inOrder
  refine ⟨?_, isFolder_eq_any horder⟩
  have hentries {path : Text} {entries : List Entry} (h : (after changes).list path = .ok entries) :
      entries = (after changes).entries (Path.toProject path) := (list_eq_ok_iff.1 h).2.2
  exact {
    list_ok_iff := fun path hfailing => by
      simp [store, list_eq_ok_iff, mem_failing_after_iff, isFolder_after_iff, hfailing]
    ascending := fun path entries h => hentries h ▸ pairwise_listing _
    slash_not_mem := fun path entries h e he =>
      (listsSegments_store horder.normal path entries h e he).1
    folder_mem_iff := fun path entries h name hname => by
      rw [hentries h, folder_mem_entries_iff hname, storedBelow_iff_exists_mem]
    file_mem_iff := fun path entries h name hname => by
      rw [hentries h, file_mem_entries_iff hname, stored_iff_exists_mem,
        storedBelow_iff_exists_mem]
    nameless_mem_iff := fun path entries h isFolder => by
      rw [hentries h, nameless_mem_entries_iff horder, stored_iff_exists_mem]
    present_iff := fun path hfailing => by
      simp [store, present, list_eq_ok_iff, mem_failing_after_iff, hfailing,
        ← isSome_file?_after_iff]
    isFile_iff := fun path => isSome_file?_after_iff
    read_ok_iff := fun path content hfailing => by
      simp [store, horder.read_eq_ok_iff, mem_failing_after_iff, hfailing, mem_files_after_iff] }

/-- The directory `src` and the files beside it that start alike, one of which is a directory too. -/
example : (after [.insert "src/a".toList [], .insert "src-old".toList [], .insert "src.ts".toList [],
    .insert "./src.ts/../src.ts/b".toList [], .insert "/".toList []]).list [] =
      .ok [⟨[], false⟩, ⟨"src".toList, true⟩, ⟨"src-old".toList, false⟩,
        ⟨"src.ts".toList, true⟩] := by
  decide

end Tree

end SourceClosure
