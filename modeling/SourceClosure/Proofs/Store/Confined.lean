import SourceClosure.Proofs.Config.Answers
import SourceClosure.Proofs.Path.Join
import SourceClosure.Store.Disk

/-!
# Stores that refuse stray paths

A project in memory takes every path for the project path that it denotes. A project on disk does
not: it refuses paths that start at the root of a file system. Both are asked the same way, so what
is asked should be project paths. `Store.confined` is a store that fails wherever it is not; as long
as only project paths are asked for, it answers as the store itself does, and a disk refuses none of
them except those that start with a drive (`Disk.resolve_eq_outsideRoot_iff`).
-/

namespace SourceClosure

/-! ## Confined stores -/

/-- The store that fails on every path that is not a project path. -/
def Store.confined (files : Store) : Store where
  read path :=
    if Path.toProject path = path then files.read path else .error (.outsideRoot path)
  list path :=
    if Path.toProject path = path then files.list path else .error (.outsideRoot path)
  present path := decide (Path.toProject path = path) && files.present path
  isFile path := decide (Path.toProject path = path) && files.isFile path

/-- The confined store answers questions about project paths alike. -/
theorem Store.sameAnswer_confined (files : Store) {a : Access}
    (h : Path.toProject a.path = a.path) : a.SameAnswer files files.confined := by
  cases a <;> simp only [Access.path] at h <;> simp [Access.SameAnswer, confined, h]

/-! ## Confined paths on disk -/

theorem Text.splitWhere_congr {isSep isSep' : Char → Bool} {t : Text}
    (h : ∀ c ∈ t, isSep c = isSep' c) : splitWhere isSep t = splitWhere isSep' t := by
  induction t with
  | nil => rfl
  | cons c t ih =>
    obtain ⟨hc, ht⟩ := List.forall_mem_cons.1 h
    have htail := ih ht
    unfold splitWhere at htail ⊢
    rw [List.foldr_cons, List.foldr_cons, htail, hc]

/-- Names never lead out of a project. -/
theorem Disk.foldlM_pushConfined {names : List Text} (h : ∀ x ∈ names, Path.IsName x)
    (stack : List Text) : names.foldlM pushConfined stack = some (names.reverse ++ stack) := by
  induction names generalizing stack with
  | nil => rfl
  | cons x names ih =>
    obtain ⟨hx, hnames⟩ := List.forall_mem_cons.1 h
    have hpush : pushConfined stack x = some (x :: stack) := by
      simp [pushConfined, hx.ne_nil, hx.ne_here, hx.ne_up]
    rw [List.foldlM_cons, hpush, Option.bind_eq_bind, Option.bind_some, ih hnames]
    simp

/-- A disk takes a project path for the names that it is written with, unless it starts with a
drive. -/
theorem Disk.confine?_of_toProject {path : Text} (hpath : Path.toProject path = path)
    (hrooted : Path.isRooted path = false) : confine? path = some (Path.segments path) := by
  have hname : ∀ x ∈ Path.segments path, Path.IsName x := fun _ => Path.isName_of_mem_segments
  have hwrite : Path.ofSegments (Path.segments path) = path := by rw [← Path.toProject_eq, hpath]
  have hback : '\\' ∉ path := hpath ▸ Path.backslash_not_mem_toProject path
  have hsplit : Text.splitWhere Path.isSeparator path = Text.split '/' path := by
    refine Text.splitWhere_congr (fun c hc => ?_)
    have hne : c ≠ '\\' := fun heq => hback (heq ▸ hc)
    simp [Path.isSeparator, hne]
  unfold confine?
  rw [if_neg (by simp [hrooted]), hsplit]
  by_cases hparts : Path.segments path = []
  · rw [hparts] at hwrite
    rw [hparts, ← hwrite]
    rfl
  · rw [← hwrite, Path.split_ofSegments hparts hname, hwrite, foldlM_pushConfined hname]
    simp

/-- Of the project paths, a disk refuses those that start with a drive, and no others. -/
theorem Disk.resolve_eq_outsideRoot_iff (d : Disk) {path : Text}
    (hpath : Path.toProject path = path) :
    d.resolve path = .error (.outsideRoot path) ↔ Path.isRooted path = true := by
  unfold resolve
  constructor
  · intro h
    cases hrooted : Path.isRooted path with
    | true => rfl
    | false =>
      rw [confine?_of_toProject hpath hrooted] at h
      dsimp only at h
      split at h <;> cases h
  · intro h
    have hnone : confine? path = none := by simp [confine?, h]
    rw [hnone]

/-! ## Names in listings -/

/-- No name in a listing starts at the root of a file system. -/
def Store.ListsNames (files : Store) : Prop :=
  ∀ path entries, files.list path = .ok entries → ∀ e ∈ entries, ¬ Path.FromRoot e.name

/-- No name in a listing holds a separator. -/
def Store.ListsSegments (files : Store) : Prop :=
  ∀ path entries, files.list path = .ok entries → ∀ e ∈ entries, '/' ∉ e.name ∧ '\\' ∉ e.name

theorem Store.ListsSegments.listsNames {files : Store} (h : files.ListsSegments) :
    files.ListsNames := by
  intro path entries hlist e he hroot
  obtain ⟨hslash, hback⟩ := h path entries hlist e he
  rw [Path.FromRoot, Path.slashes_of_not_mem hback] at hroot
  exact hslash (List.mem_of_head? hroot)

theorem exists_of_mem_addEntry {e f : Entry} {entries : List Entry} (h : f ∈ addEntry e entries) :
    ∃ g ∈ e :: entries, g.name = f.name := by
  induction entries with
  | nil => exact ⟨f, h, rfl⟩
  | cons g entries ih =>
    unfold addEntry at h
    split at h
    · rcases List.mem_cons.1 h with rfl | h
      · exact ⟨g, by simp, rfl⟩
      · exact ⟨f, by simp [h], rfl⟩
    · split at h
      · exact ⟨f, h, rfl⟩
      · rcases List.mem_cons.1 h with rfl | h
        · exact ⟨f, by simp, rfl⟩
        · obtain ⟨g', hg', hname⟩ := ih h
          refine ⟨g', ?_, hname⟩
          rcases List.mem_cons.1 hg' with rfl | hg'
          · exact List.mem_cons_self
          · simp [hg']

/-- A listing has no names but those of its entries. -/
theorem exists_of_mem_listing {e : Entry} {entries : List Entry} (h : e ∈ listing entries) :
    ∃ f ∈ entries, f.name = e.name := by
  have hfold {sorted entries : List Entry} {e : Entry}
      (h : e ∈ entries.foldl (fun sorted e => addEntry e sorted) sorted) :
      ∃ f ∈ sorted ++ entries, f.name = e.name := by
    induction entries generalizing sorted with
    | nil => exact ⟨e, by simpa using h, rfl⟩
    | cons f entries ih =>
      obtain ⟨g, hg, hname⟩ := ih h
      rcases List.mem_append.1 hg with hg | hg
      · obtain ⟨g', hg', hname'⟩ := exists_of_mem_addEntry hg
        refine ⟨g', ?_, hname'.trans hname⟩
        rcases List.mem_cons.1 hg' with rfl | hg' <;> simp [*]
      · exact ⟨g, by simp [hg], hname⟩
  simpa using hfold h

namespace Tree

theorem entryOf_name (rest : Text) : (entryOf rest).name = rest.takeWhile (· != '/') := by
  unfold entryOf Text.splitOnce
  cases hrest : rest.dropWhile (· != '/') with
  | nil =>
    have hcut := List.takeWhile_append_dropWhile (p := (· != '/')) (l := rest)
    rw [hrest, List.append_nil] at hcut
    exact hcut.symm
  | cons c rest => rfl

theorem eq_or_mem_of_mem_putFile {f g : StoredFile} {files : List StoredFile}
    (h : g ∈ putFile f files) : g = f ∨ g ∈ files := by
  induction files with
  | nil => exact .inl (List.mem_singleton.1 h)
  | cons f' files ih =>
    unfold putFile at h
    split at h
    · rcases List.mem_cons.1 h with rfl | h
      · exact .inl rfl
      · exact .inr (List.mem_cons_of_mem _ h)
    · split at h
      · exact List.mem_cons.1 h
      · rcases List.mem_cons.1 h with rfl | h
        · exact .inr List.mem_cons_self
        · exact (ih h).imp id (List.mem_cons_of_mem _)

/-- A tree holds its files under project paths. -/
theorem toProject_of_mem_ofFiles {files : List (Text × Text)} {f : StoredFile}
    (h : f ∈ (ofFiles files).files) : Path.toProject f.path = f.path := by
  have hfold {files : List (Text × Text)} {t : Tree}
      (ht : ∀ f ∈ t.files, Path.toProject f.path = f.path) :
      ∀ f ∈ (files.foldl (fun t file => t.insert file.1 file.2) t).files,
        Path.toProject f.path = f.path := by
    induction files generalizing t with
    | nil => exact ht
    | cons file files ih =>
      refine ih (fun f hf => ?_)
      rcases eq_or_mem_of_mem_putFile hf with rfl | hf
      · exact Path.toProject_toProject _
      · exact ht f hf
  exact hfold (List.forall_mem_nil _) f h

/-- The names that a tree lists are segments of its files' paths. -/
theorem listsSegments_store {t : Tree} (ht : ∀ f ∈ t.files, Path.toProject f.path = f.path) :
    t.store.ListsSegments := by
  intro path entries hlist e he
  have hentries : entries = t.entries (Path.toProject path) := by
    simp only [store, list] at hlist
    split at hlist
    · cases hlist
    · split at hlist
      · exact (Except.ok.inj hlist).symm
      · cases hlist
  rw [hentries] at he
  obtain ⟨e', he', hname⟩ := exists_of_mem_listing he
  obtain ⟨f, hf, hrest⟩ := List.mem_filterMap.1 he'
  obtain ⟨rest, hafter, rfl⟩ := Option.map_eq_some_iff.1 hrest
  have hback : '\\' ∉ f.path := ht f hf ▸ Path.backslash_not_mem_toProject f.path
  have hsub : ∀ c ∈ e.name, c ≠ '/' ∧ c ∈ f.path := by
    intro c hc
    rw [← hname, entryOf_name] at hc
    have hne := List.all_eq_true.1 List.all_takeWhile c hc
    refine ⟨by simpa using hne, ?_⟩
    rw [Text.eq_append_of_after? hafter]
    exact List.mem_append_right _ (List.takeWhile_subset _ hc)
  exact ⟨fun h => (hsub _ h).1 rfl, fun h => hback (hsub _ h).2⟩

theorem listsNames_store {t : Tree} (ht : ∀ f ∈ t.files, Path.toProject f.path = f.path) :
    t.store.ListsNames :=
  (listsSegments_store ht).listsNames

end Tree

end SourceClosure
