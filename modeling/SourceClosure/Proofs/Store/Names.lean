import SourceClosure.Proofs.Path.Join
import SourceClosure.Proofs.Store.Tree

/-!
# Names in listings

The names that a directory lists are told apart, and they lead somewhere: joined onto the directory
one below the other, they make the project path that has them for its last segments (`Path.down`). A
tree that was built lists such names only (`Tree.IsBuilt.listsDistinctly`). The one exception is a
file without any name, which can be put into a tree and shows at the root.
-/

namespace SourceClosure

/-! ## Where names lead -/

namespace Path

/-- The project path to which the names lead from a directory, one below the other. -/
def down (directory : Text) (names : List Text) : Text :=
  ofSegments (segments directory ++ names)

variable {directory x : Text} {names : List Text}

theorem down_nil (h : toProject directory = directory) : down directory [] = directory := by
  rw [down, List.append_nil, ← toProject_eq, h]

theorem segments_down (h : ∀ x ∈ names, IsName x) :
    segments (down directory names) = segments directory ++ names := by
  refine segments_ofSegments fun x hx => ?_
  rcases List.mem_append.1 hx with hx | hx
  · exact isName_of_mem_segments hx
  · exact h x hx

theorem toProject_down (h : ∀ x ∈ names, IsName x) :
    toProject (down directory names) = down directory names := by
  rw [toProject_eq, segments_down h, down]

theorem IsName.not_fromRoot (hx : IsName x) : ¬ FromRoot x := by
  rw [FromRoot, slashes_of_not_mem hx.backslash]
  intro hhead
  exact hx.slash (List.mem_of_head? hhead)

/-- A name that is joined onto a directory leads one step down. -/
theorem join_eq_down (h : toProject directory = directory) (hx : IsName x) :
    join directory x = down directory [x] := by
  rw [← toProject_join (not_fromRoot_of_toProject h) hx.not_fromRoot, toProject_eq,
    segments_join_name hx, down]

theorem toProject_join_name (h : toProject directory = directory) (hx : IsName x) :
    toProject (join directory x) = join directory x :=
  toProject_join (not_fromRoot_of_toProject h) hx.not_fromRoot

/-- Names lead from a directory where all but the first lead from the one that this leads to. -/
theorem down_join (hx : IsName x) (names : List Text) :
    down (join directory x) names = down directory (x :: names) := by
  rw [down, segments_join_name hx, List.append_assoc, List.singleton_append, down]

end Path

/-! ## Listings -/

theorem pairwise_addEntry (e : Entry) {entries : List Entry}
    (h : entries.Pairwise (fun e f => e.name < f.name)) :
    (addEntry e entries).Pairwise (fun e f => e.name < f.name) := by
  induction entries with
  | nil => simp [addEntry]
  | cons f entries ih =>
    obtain ⟨hf, hentries⟩ := List.pairwise_cons.1 h
    unfold addEntry
    split
    · exact List.pairwise_cons.2 ⟨hf, hentries⟩
    · next hne =>
      split
      · next hbefore =>
        have hlt := Text.before_iff_lt.1 hbefore
        refine List.pairwise_cons.2 ⟨fun g hg => ?_, h⟩
        rcases List.mem_cons.1 hg with rfl | hg
        · exact hlt
        · exact hlt.trans (hf g hg)
      · next hnot =>
        have hlt : f.name < e.name := by
          rw [Text.before_iff_lt, not_lt] at hnot
          exact lt_of_le_of_ne hnot (Ne.symm hne)
        refine List.pairwise_cons.2 ⟨fun g hg => ?_, ih hentries⟩
        obtain ⟨g', hg', hname⟩ := exists_of_mem_addEntry hg
        rw [← hname]
        rcases List.mem_cons.1 hg' with rfl | hg'
        · exact hlt
        · exact hf g' hg'

/-- A listing is in strictly ascending order of its names. -/
theorem pairwise_listing (entries : List Entry) :
    (listing entries).Pairwise (fun e f => e.name < f.name) := by
  have hfold {sorted entries : List Entry} (h : sorted.Pairwise (fun e f => e.name < f.name)) :
      (entries.foldl (fun sorted e => addEntry e sorted) sorted).Pairwise
        (fun e f => e.name < f.name) := by
    induction entries generalizing sorted with
    | nil => exact h
    | cons e entries ih => exact ih (pairwise_addEntry e h)
  exact hfold .nil

/-- The entries of a directory are told apart by their names, by which paths go on. -/
structure Store.ListsDistinctly (files : Store) : Prop where
  /-- Only a file can be without a name. -/
  name {path : Text} {entries : List Entry} : files.list path = .ok entries →
    ∀ e ∈ entries, Path.IsName e.name ∨ e.name = [] ∧ e.isFolder = false
  distinct {path : Text} {entries : List Entry} : files.list path = .ok entries →
    entries.Pairwise (fun e f => e.name ≠ f.name)

namespace Tree

variable {t : Tree}

/-- The name of an entry stands between slashes of its file's path. -/
theorem name_mem_split (key rest : Text) :
    (entryOf rest).name ∈ Text.split '/' (below key ++ rest) := by
  have hrest : (entryOf rest).name ∈ Text.split '/' rest := by
    unfold entryOf
    split
    · next name after hsplit =>
      obtain ⟨rfl, hname⟩ := Text.splitOnce_spec hsplit
      rw [Text.split_append_sep, Text.split_of_not_mem hname]
      exact List.mem_append_left _ (List.mem_singleton_self name)
    · next hnone =>
      rw [Text.split_of_not_mem (Text.not_mem_of_splitOnce hnone)]
      exact List.mem_singleton_self rest
  unfold below
  split
  · exact hrest
  · rw [List.append_assoc, List.singleton_append, Text.split_append_sep]
    exact List.mem_append_right _ hrest

/-- A file that has a path gives a name to its entry. -/
theorem InOrder.isName_entryOf (h : t.InOrder) {f : StoredFile} (hf : f ∈ t.files)
    (hne : f.path ≠ []) {key rest : Text} (hpath : f.path = below key ++ rest) :
    Path.IsName (entryOf rest).name := by
  have hname : ∀ x ∈ Path.segments f.path, Path.IsName x := fun _ => Path.isName_of_mem_segments
  have hwritten : Path.ofSegments (Path.segments f.path) = f.path := by
    rw [← Path.toProject_eq, h.normal f hf]
  have hsegments : Path.segments f.path ≠ [] := by
    intro hnil
    rw [hnil] at hwritten
    exact hne hwritten.symm
  have hsplit : Text.split '/' f.path = Path.segments f.path := by
    rw [← hwritten, Path.split_ofSegments hsegments hname, hwritten]
  refine hname _ ?_
  rw [← hsplit, hpath]
  exact name_mem_split key rest

theorem InOrder.isName_of_mem_entries (h : t.InOrder) {key : Text} {e : Entry}
    (he : e ∈ t.entries key) : Path.IsName e.name ∨ e.name = [] ∧ e.isFolder = false := by
  obtain ⟨name, isFolder⟩ := e
  cases isFolder with
  | true =>
    -- What shows as a directory has a file below it.
    obtain ⟨f, hf, hafter⟩ := List.mem_filterMap.1 (folder_mem_listing_iff.1 he)
    obtain ⟨rest, hrest, hentry⟩ := Option.map_eq_some_iff.1 hafter
    have hpath := Text.eq_append_of_after? hrest
    have hne : f.path ≠ [] := by
      intro hnil
      rw [hnil, eq_comm, List.append_eq_nil_iff] at hpath
      rw [hpath.2] at hentry
      cases hentry
    have hname := h.isName_entryOf hf hne hpath
    rw [hentry] at hname
    exact .inl hname
  | false =>
    obtain ⟨e', he', hname⟩ := exists_of_mem_listing he
    obtain ⟨f, hf, hafter⟩ := List.mem_filterMap.1 he'
    obtain ⟨rest, hrest, rfl⟩ := Option.map_eq_some_iff.1 hafter
    have hpath := Text.eq_append_of_after? hrest
    rw [← hname]
    by_cases hne : f.path = []
    · rw [hne, eq_comm, List.append_eq_nil_iff] at hpath
      rw [hpath.2]
      exact .inr ⟨rfl, rfl⟩
    · exact .inl (h.isName_entryOf hf hne hpath)

theorem InOrder.listsDistinctly (h : t.InOrder) : t.store.ListsDistinctly where
  name hlist e he := by
    obtain ⟨-, -, rfl⟩ := list_eq_ok_iff.1 hlist
    exact h.isName_of_mem_entries he
  distinct hlist := by
    obtain ⟨-, -, rfl⟩ := list_eq_ok_iff.1 hlist
    exact (pairwise_listing _).imp (fun hlt => hlt.ne)

/-- Paths fail in their normal form. -/
theorem IsBuilt.toProject_failing (h : t.IsBuilt) : ∀ x ∈ t.failing, Path.toProject x = x := by
  induction h with
  | empty => exact List.forall_mem_nil _
  | insert _ _ _ ih => exact ih
  | failOn path _ ih => exact List.forall_mem_cons.2 ⟨Path.toProject_toProject path, ih⟩

/-! ## Trees on which nothing fails -/

/-- The tree with its files, of which none fails. -/
def unfailing (t : Tree) : Tree :=
  { t with failing := [] }

@[simp] theorem failing_unfailing (t : Tree) : t.unfailing.failing = [] := rfl

@[simp] theorem files_unfailing (t : Tree) : t.unfailing.files = t.files := rfl

@[simp] theorem isFolder_unfailing (t : Tree) (key : Text) :
    t.unfailing.isFolder key = t.isFolder key := rfl

@[simp] theorem entries_unfailing (t : Tree) (key : Text) :
    t.unfailing.entries key = t.entries key := rfl

theorem InOrder.unfailing (h : t.InOrder) : t.unfailing.InOrder :=
  ⟨h.ascending, h.normal⟩

theorem list_eq_ok_iff_unfailing {path : Text} {entries : List Entry} :
    t.list path = .ok entries ↔
      Path.toProject path ∉ t.failing ∧ t.unfailing.list path = .ok entries := by
  rw [list_eq_ok_iff, list_eq_ok_iff]
  simp

theorem InOrder.read_eq_ok_iff_unfailing (h : t.InOrder) {path content : Text} :
    t.read path = .ok content ↔
      Path.toProject path ∉ t.failing ∧ t.unfailing.read path = .ok content := by
  rw [h.read_eq_ok_iff, h.unfailing.read_eq_ok_iff]
  simp

end Tree

end SourceClosure
