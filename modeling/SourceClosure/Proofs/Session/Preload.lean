import SourceClosure.Proofs.Session.Order
import SourceClosure.Proofs.Specifier.Package
import SourceClosure.Proofs.Store.Tree

/-!
# Preloading covers the stub directories

Preloading asks for every package that has stubs in a type root, whichever packages came first, and
whatever is asked for brings in all its files (`IsComplete`). The name of a stub directory is taken
for the name of a package and back again, so what is searched is that directory, in the first type
root that has it. In memory the search of a directory takes up all declaration files within bounds
(`Tree.mem_found`), except those whose path is also a directory: a name that is both is listed as a
directory only.
-/

namespace SourceClosure

/-! ## Searching in memory -/

namespace Tree

/-- The names lead from a directory to a declaration file within the bounds of a search: none of them
is hidden, no directory is denied or too deep, the file is not too large, and nothing on the way
fails. -/
structure InBounds (t : Tree) (settings : Settings) (depth : Nat) (directory : Text)
    (names : List Text) (f : StoredFile) : Prop where
  stored : f ∈ t.files
  segments : Path.segments f.path = Path.segments directory ++ names
  ne_nil : names ≠ []
  depth : names.length ≤ depth + 1
  shown : ∀ name ∈ names, name.head? ≠ some '.'
  allowed : ∀ name ∈ names.dropLast, settings.isDenied name = false
  declaration : Path.isDeclaration f.path = true
  size : Text.byteLength f.content < settings.maxDeclarationSize
  readable : ∀ before, before <+: names →
    Path.ofSegments (Path.segments directory ++ before) ∉ t.failing

variable {t : Tree} {settings : Settings}

namespace InBounds

variable {depth : Nat} {directory name : Text} {names : List Text} {f : StoredFile}

theorem isName (h : t.InBounds settings depth directory (name :: names) f) :
    Path.IsName name := by
  refine Path.isName_of_mem_segments (p := f.path) ?_
  rw [h.segments]
  simp

theorem segments_join (h : t.InBounds settings depth directory (name :: names) f) :
    Path.segments (Path.join directory name) = Path.segments directory ++ [name] :=
  Path.segments_join_name h.isName directory

/-- How the directory is spelled does not matter. -/
theorem congr (h : t.InBounds settings depth directory names f) {directory' : Text}
    (hd : Path.segments directory' = Path.segments directory) :
    t.InBounds settings depth directory' names f where
  __ := h
  segments := hd ▸ h.segments
  readable := hd ▸ h.readable

/-- Bounds for a search are bounds for the search of the directory below that it enters. -/
theorem enter (h : t.InBounds settings (depth + 1) directory (name :: names) f)
    (hne : names ≠ []) : t.InBounds settings depth (Path.join directory name) names f where
  stored := h.stored
  segments := by rw [h.segments, h.segments_join, List.append_assoc, List.singleton_append]
  ne_nil := hne
  depth := by simpa using h.depth
  shown x hx := h.shown x (List.mem_cons_of_mem _ hx)
  allowed x hx := by
    refine h.allowed x ?_
    rw [List.dropLast_cons_of_ne_nil hne]
    exact List.mem_cons_of_mem _ hx
  declaration := h.declaration
  size := h.size
  readable before hbefore := by
    rw [h.segments_join, List.append_assoc, List.singleton_append]
    exact h.readable (name :: before) ((List.prefix_cons_inj name).2 hbefore)

end InBounds

namespace InOrder

variable {depth : Nat} {directory name : Text} {names : List Text} {f : StoredFile}

theorem eq_ofSegments (h : t.InOrder) (hf : t.InBounds settings depth directory names f) :
    f.path = Path.ofSegments (Path.segments directory ++ names) := by
  rw [← hf.segments, ← Path.toProject_eq, h.normal f hf.stored]

/-- A directory that a file within bounds lies below is listed. -/
theorem list_eq_ok (h : t.InOrder) (hf : t.InBounds settings depth directory names f) :
    t.list directory = .ok (t.entries (Path.toProject directory)) := by
  have hname : ∀ x ∈ Path.segments directory, Path.IsName x :=
    fun _ => Path.isName_of_mem_segments
  have hfailing := hf.readable [] List.nil_prefix
  rw [List.append_nil, ← Path.toProject_eq] at hfailing
  refine list_eq_ok_iff.2 ⟨hfailing, h.isFolder_iff.2 ?_, rfl⟩
  rw [Path.toProject_eq, Path.ofSegments_eq_nil_iff hname]
  by_cases hroot : Path.segments directory = []
  · exact .inl hroot
  · refine .inr ⟨f, hf.stored, Path.ofSegments names, ?_⟩
    rw [h.eq_ofSegments hf, Path.ofSegments_append _ hf.ne_nil, Path.folderOf, if_neg hroot]

/-- A file within bounds is a declaration file in the directory that holds it. -/
theorem declarationAt?_join (h : t.InOrder)
    (hf : t.InBounds settings depth directory [name] f) (specifiersIn : Text → List Text) :
    Path.isDeclaration name = true ∧
      (t.project specifiersIn settings).declarationAt? (Path.join directory name) =
        some ⟨f.path, f.content⟩ := by
  have hpath := h.eq_ofSegments hf
  have hproject : Path.toProject (Path.join directory name) = f.path := by
    rw [Path.toProject_eq, hf.segments_join, hpath]
  constructor
  · have hsplits := Path.splits_ofSegments (fun _ => Path.isName_of_mem_segments (p := directory))
      hf.isName
    rw [Path.isDeclaration, ← hsplits.ofPath?_eq, ← hpath]
    exact hf.declaration
  · have hread : t.read (Path.join directory name) = .ok f.content := by
      refine h.read_eq_ok_iff.2 ⟨?_, hproject ▸ hf.stored⟩
      rw [Path.toProject_eq, hf.segments_join]
      exact hf.readable [name] (List.prefix_refl _)
    rw [Project.declarationAt?_eq_some_iff, hproject]
    exact ⟨f.content, hread, hf.size, rfl⟩

/-- The search of a directory takes up every file within bounds that nothing lies below. -/
theorem mem_found (h : t.InOrder) (hf : t.InBounds settings depth directory names f)
    (hleaf : t.isFolder f.path = false) (specifiersIn : Text → List Text) :
    ⟨f.path, f.content⟩ ∈ (t.project specifiersIn settings).found depth directory := by
  induction names generalizing depth directory with
  | nil => exact absurd rfl hf.ne_nil
  | cons name names ih =>
    have hlist := h.list_eq_ok hf
    have hpath := h.eq_ofSegments hf
    have hshown := hf.shown name List.mem_cons_self
    cases names with
    | nil =>
      obtain ⟨hdeclaration, hfile⟩ := h.declarationAt?_join hf specifiersIn
      have hentry := h.file_mem_entries hf.stored hf.isName hpath hleaf
      exact Project.mem_found_of_file hlist hentry hshown hdeclaration hfile depth
    | cons next rest =>
      have hne : next :: rest ≠ [] := List.cons_ne_nil next rest
      have hdepth := hf.depth
      obtain ⟨room, rfl⟩ : ∃ room, depth = room + 1 :=
        Nat.exists_eq_add_one.2 (by simp only [List.length_cons] at hdepth; omega)
      have hentry := folder_mem_entries hf.stored hf.isName hne hpath
      have hallowed := hf.allowed name (by simp)
      exact Project.mem_found_of_folder hlist hentry hshown hallowed (ih (hf.enter hne))

end InOrder

end Tree

/-! ## Sessions that are complete -/

namespace Session

variable {p : Project}

/-- The corpus has all files of the packages that were asked for. -/
def IsComplete (p : Project) (s : Session) : Prop :=
  ∀ name ∈ s.loaded, ∀ f ∈ p.packageFiles s.config.options.typeRoots name, s.has f.path = true

theorem isComplete_of_loaded_nil {s : Session} (h : s.loaded = []) : IsComplete p s := by
  intro name hname
  rw [h] at hname
  cases hname

theorem IsComplete.note {s : Session} (h : IsComplete p s) (a : Access) :
    IsComplete p (s.note a) :=
  h

theorem mem_loaded_loadEach_iff {names : List Text} {s : Session} {name : Text} :
    name ∈ (loadEach p names s).loaded ↔ name ∈ names ∨ name ∈ s.loaded := by
  obtain ⟨files, -, hbrings⟩ := exists_brings_loadEach (p := p) names s
  rw [hbrings.loaded, mem_loaded_takeEach_iff]

theorem IsComplete.loadEach {s : Session} (h : IsComplete p s) (names : List Text) :
    IsComplete p (loadEach p names s) := by
  obtain ⟨files, hmem, hbrings⟩ := exists_brings_loadEach (p := p) names s
  have hgrows := evolves_loadEach (p := p) names s
  intro name hname f hf
  rw [hgrows.config] at hf
  by_cases hold : name ∈ s.loaded
  · exact hgrows.has (h name hold f hf)
  · have hnew := (mem_loaded_loadEach_iff.1 hname).resolve_right hold
    exact hbrings.has_of_mem ((hmem f).2 ⟨name, hnew, hold, hf⟩)

/-! ## Type roots -/

theorem loadTypeRoot_of_ok {root : Text} {entries : List Entry}
    (h : p.files.list root = .ok entries) (s : Session) :
    loadTypeRoot p s root = loadEach p (stubPackages entries) (s.note (.list root)) := by
  simp [loadTypeRoot, h]

theorem loadTypeRoot_of_error {root : Text} {fault : StoreFault}
    (h : p.files.list root = .error fault) (s : Session) :
    loadTypeRoot p s root = s.note (.list root) := by
  simp [loadTypeRoot, h]

theorem IsComplete.loadTypeRoot {s : Session} (h : IsComplete p s) (root : Text) :
    IsComplete p (loadTypeRoot p s root) := by
  cases hlist : p.files.list root with
  | error fault => exact loadTypeRoot_of_error hlist s ▸ h.note _
  | ok entries => exact loadTypeRoot_of_ok hlist s ▸ (h.note _).loadEach _

theorem loaded_subset_loadTypeRoot (s : Session) (root : Text) :
    s.loaded ⊆ (loadTypeRoot p s root).loaded := by
  cases hlist : p.files.list root with
  | error fault => exact loadTypeRoot_of_error hlist s ▸ List.Subset.refl _
  | ok entries =>
    intro name hname
    rw [loadTypeRoot_of_ok hlist, mem_loaded_loadEach_iff]
    exact .inr hname

/-- Preloading keeps a session complete. -/
theorem IsComplete.preload {s : Session} (h : IsComplete p s) :
    IsComplete p (preload p s).2 := by
  have hroots {roots : List Text} {s : Session} (h : IsComplete p s) :
      IsComplete p (roots.foldl (Session.loadTypeRoot p) s) := by
    induction roots generalizing s with
    | nil => exact h
    | cons root roots ih => exact ih (h.loadTypeRoot root)
  exact hroots (h.loadEach _)

/-- Preloading asks for every package that has stubs in a type root. -/
theorem mem_loaded_preload {s : Session} {root name : Text} {entries : List Entry}
    (hroot : root ∈ s.config.options.typeRoots) (hlist : p.files.list root = .ok entries)
    (hname : name ∈ stubPackages entries) : name ∈ (preload p s).2.loaded := by
  have hgrows {roots : List Text} {s : Session} :
      s.loaded ⊆ (roots.foldl (loadTypeRoot p) s).loaded := by
    induction roots generalizing s with
    | nil => exact List.Subset.refl _
    | cons root roots ih => exact fun _ h => ih (loaded_subset_loadTypeRoot s root h)
  have hfold {roots : List Text} {s : Session} (hroot : root ∈ roots) :
      name ∈ (roots.foldl (loadTypeRoot p) s).loaded := by
    induction roots generalizing s with
    | nil => cases hroot
    | cons first roots ih =>
      rcases List.mem_cons.1 hroot with rfl | hroot
      · have hfirst : name ∈ (loadTypeRoot p s root).loaded := by
          rw [loadTypeRoot_of_ok hlist, mem_loaded_loadEach_iff]
          exact .inl hname
        rw [List.foldl_cons]
        exact hgrows hfirst
      · exact ih hroot
  refine hfold ?_
  rwa [(evolves_loadEach _ s).config]

/-- Where the stubs of the package that a stub directory is for are looked for: in the first type
root that has a directory of that name. -/
theorem packageFiles_packageOfStub {roots : List Text} {root stub : Text} (hstub : '/' ∉ stub)
    (hfirst : roots.find? (fun r => p.files.present (Path.join r stub)) = some root) :
    p.packageFiles roots (Specifier.packageOfStub stub) =
      p.found p.settings.typeStubDepth (Path.toProject (Path.join root stub)) := by
  have hfind : (Project.stubFolders roots (Specifier.packageOfStub stub)).find?
      p.files.present = some (Path.join root stub) := by
    rw [Project.stubFolders, Specifier.stubName_packageOfStub hstub, List.find?_map]
    simp only [Function.comp_def, hfirst, Option.map_some]
  rw [Project.packageFiles, hfind]

/-! ## Main result -/

/-- After preloading, every package that has a stub directory in a type root was asked for, and of
the first directory of that name in the type roots the corpus has all declaration files within
bounds, except those whose path is a directory as well. -/
theorem preload_covers_stubs {t : Tree} (ht : t.IsBuilt) (specifiersIn : Text → List Text)
    (settings : Settings) {s : Session} (hs : s.loaded = []) {root : Text} {entries : List Entry}
    {e : Entry} (hroot : root ∈ s.config.options.typeRoots) (hlist : t.list root = .ok entries)
    (he : e ∈ entries) (hfolder : e.isFolder = true) (hshown : e.name.head? ≠ some '.') :
    let u := (preload (t.project specifiersIn settings) s).2
    u.isLoaded (Specifier.packageOfStub e.name) = true ∧
      ∀ first, s.config.options.typeRoots.find? (fun r => t.present (Path.join r e.name)) =
          some first →
        ∀ names f, t.InBounds settings settings.typeStubDepth (Path.join first e.name) names f →
          t.isFolder f.path = false → u.has f.path = true := by
  intro u
  have hloaded : Specifier.packageOfStub e.name ∈ u.loaded := by
    refine mem_loaded_preload hroot hlist (List.mem_map.2 ⟨e, List.mem_filter.2 ⟨he, ?_⟩, rfl⟩)
    simpa [hfolder] using hshown
  refine ⟨isLoaded_iff.2 hloaded, fun first hfirst names f hf hleaf => ?_⟩
  have hslash := (Tree.listsSegments_store ht.inOrder.normal root entries hlist e he).1
  have hcomplete := (isComplete_of_loaded_nil (p := t.project specifiersIn settings) hs).preload
  refine hcomplete _ hloaded ⟨f.path, f.content⟩ ?_
  rw [(evolves_preload s).config, packageFiles_packageOfStub hslash hfirst]
  exact ht.inOrder.mem_found (hf.congr (Path.segments_toProject _)) hleaf specifiersIn

/-- A file one level down in a stub directory. -/
def stubbed : Tree :=
  .ofFiles [("node_modules/@types/node/fs/promises.d.ts".toList, [])]

theorem preload_covers_stubbed :
    let roots := Session.new.config.options.typeRoots
    let root := "node_modules/@types".toList
    root ∈ roots ∧ stubbed.list root = .ok [⟨"node".toList, true⟩] ∧
      (preload (stubbed.project (fun _ => []) {}) new).2.isLoaded "node".toList = true ∧
      (preload (stubbed.project (fun _ => []) {}) new).2.has
        "node_modules/@types/node/fs/promises.d.ts".toList = true := by
  intro roots root
  have hroot : root ∈ roots := by decide
  have hlist : stubbed.list root = .ok [⟨"node".toList, true⟩] := by decide +kernel
  have hbounds : stubbed.InBounds {} 3 (Path.join root "node".toList)
      ["fs".toList, "promises.d.ts".toList]
      ⟨"node_modules/@types/node/fs/promises.d.ts".toList, []⟩ := by
    refine ⟨?_, ?_, ?_, ?_, ?_, ?_, ?_, ?_, fun before _ => List.not_mem_nil⟩
    all_goals decide +kernel
  obtain ⟨hloaded, hcovers⟩ := preload_covers_stubs (Tree.isBuilt_ofFiles _) (fun _ => []) {}
    (s := new) rfl hroot hlist List.mem_cons_self rfl (by decide)
  exact ⟨hroot, hlist, hloaded, hcovers root (by decide +kernel) _ _ hbounds (by decide +kernel)⟩

/-- A file whose path is also a directory. -/
def twofold : Tree :=
  .ofFiles [("node_modules/@types/n/a.d.ts".toList, []),
    ("node_modules/@types/n/a.d.ts/b.d.ts".toList, [])]

/-- A declaration file within bounds is left out if its path is also a directory. -/
theorem not_preload_covers_twofold :
    let root := "node_modules/@types".toList
    Session.new.config.options.typeRoots.find?
        (fun r => twofold.present (Path.join r ['n'])) = some root ∧
      twofold.list root = .ok [⟨['n'], true⟩] ∧
      twofold.InBounds {} 3 (Path.join root ['n']) ["a.d.ts".toList]
        ⟨"node_modules/@types/n/a.d.ts".toList, []⟩ ∧
      (preload (twofold.project (fun _ => []) {}) new).2.has
        "node_modules/@types/n/a.d.ts".toList = false := by
  intro root
  refine ⟨by decide +kernel, by decide +kernel, ?_, by decide +kernel⟩
  refine ⟨?_, ?_, ?_, ?_, ?_, ?_, ?_, ?_, fun before _ => List.not_mem_nil⟩
  all_goals decide +kernel

end Session

end SourceClosure
