import SourceClosure.Proofs.Session.Live
import SourceClosure.Proofs.Session.Packages
import SourceClosure.Proofs.Specifier.Package
import SourceClosure.Proofs.Store.Tree

/-!
# Where packages reach

A package that is loaded brings in declaration files below one of its stub directories or below its
own directory, and both lie strictly below the directories where stubs and packages are kept. So no
file of the project itself is fed for a package (`loadPackage_stays_inside`). Three texts have to be
kept in check for that: the name of the package, the names in listings, and the file that the
package's manifest names. Nothing in a session does so for the last of them
(`not_loadPackage_stays_inside`). No model is opened either, if the setting that says where packages
are kept is a project path other than the root, since it is taken as it is written when files are told
from those of packages.
-/

namespace SourceClosure

/-! ## Searches -/

namespace Project

variable {p : Project}

theorem declarationAt?_join (hp : p.files.ListsSegments) {directory : Text}
    {entries : List Entry} (hlist : p.files.list directory = .ok entries) {e : Entry}
    (he : e ∈ entries) (hdeclaration : Path.isDeclaration e.name = true) {f : CorpusFile}
    (hf : p.declarationAt? (Path.join directory e.name) = some f) :
    Path.Below directory f.path ∧ Path.isDeclaration f.path = true := by
  obtain ⟨hslash, hback⟩ := hp directory entries hlist e he
  have hname : Path.IsName e.name :=
    Path.isName_of_hasSuffix hslash hback (Session.hasSuffix_of_isDeclaration hdeclaration)
  obtain ⟨content, -, -, rfl⟩ := declarationAt?_eq_some_iff.1 hf
  refine ⟨Path.below_toProject_iff.2 (Path.below_join hname directory), ?_⟩
  have hsplits := Path.splits_ofSegments
    (fun _ => Path.isName_of_mem_segments (p := directory)) hname
  dsimp only
  rw [Path.isDeclaration, Path.toProject_eq, Path.segments_join_name hname, hsplits.ofPath?_eq]
  exact hdeclaration

/-- A search takes up declaration files below the directory that it starts in. -/
theorem below_of_mem_found (hp : p.files.ListsSegments) {depth : Nat} {directory : Text}
    {f : CorpusFile} (hf : f ∈ p.found depth directory) :
    Path.Below directory f.path ∧ Path.isDeclaration f.path = true := by
  refine found_induction
    (motive := fun path => Path.Below path f.path ∧ Path.isDeclaration f.path = true) ?_ ?_ hf
  · intro directory entries hlist e he hdeclaration hfile
    exact declarationAt?_join hp hlist he hdeclaration hfile
  · intro directory entries hlist e he hshown hbelow
    obtain ⟨hinside, hdeclaration⟩ := hbelow
    obtain ⟨hslash, hback⟩ := hp directory entries hlist e he
    refine ⟨?_, hdeclaration⟩
    by_cases hempty : e.name = []
    · rwa [Path.Below, hempty, Path.segments_join_nil] at hinside
    · refine (Path.below_join ⟨hempty, ?_, ?_, hslash, hback⟩ directory).trans hinside
      all_goals
        intro hdots
        exact hshown (by rw [hdots]; rfl)

/-! ## Manifests -/

/-- What the manifest of a package names, if it names anything, lies below the directory of the
package. -/
def NamesInside (p : Project) (package : Text) : Prop :=
  ∀ entry ∈ (p.manifestAt (p.folderOf package)).bind Manifest.typesEntry?,
    Path.Below (p.folderOf package) (Path.join (p.folderOf package) (Path.stripHere entry))

instance (p : Project) (package : Text) : Decidable (p.NamesInside package) :=
  inferInstanceAs (Decidable (∀ entry ∈ _, _))

/-- The file that the declarations of a package start with lies below the package's directory, if
what the manifest names does. -/
theorem NamesInside.below_entryPath {package : Text} (h : p.NamesInside package) :
    Path.Below (p.folderOf package)
      (Session.entryPath (p.folderOf package) (p.manifestAt (p.folderOf package))) := by
  unfold Session.entryPath
  split
  · exact Path.below_join (Path.isName_of_hasSuffix (by decide) (by decide) (by decide)) _
  · next entry hentry =>
    have hinside := h entry hentry
    dsimp only
    split
    · exact hinside
    · exact hinside.append_suffix .dts

/-! ## The files of a package -/

/-- The files of a package lie below a stub directory and hold declarations, or below the directory
of the package. -/
theorem below_of_mem_packageFiles (hp : p.files.ListsSegments) {roots : List Text}
    {package : Text} (hinside : p.NamesInside package) {f : CorpusFile}
    (hf : f ∈ p.packageFiles roots package) :
    (∃ root ∈ roots, Path.Below (Path.join root (Specifier.stubName package)) f.path) ∧
        Path.isDeclaration f.path = true ∨
      Path.Below (p.folderOf package) f.path := by
  rcases mem_packageFiles hf with ⟨directory, hdirectory, hfound⟩ | hentry | hfound
  · obtain ⟨root, hroot, rfl⟩ := List.mem_map.1 hdirectory
    obtain ⟨hbelow, hdeclaration⟩ := below_of_mem_found hp hfound
    exact .inl ⟨⟨root, hroot, Path.toProject_below_iff.1 hbelow⟩, hdeclaration⟩
  · obtain ⟨-, content, -, rfl⟩ := fileAt?_eq_some_iff.1 hentry
    exact .inr (Path.below_toProject_iff.2 hinside.below_entryPath)
  · exact .inr (Path.toProject_below_iff.1 (below_of_mem_found hp hfound).1)

end Project

/-! ## Live files -/

theorem Path.isScript_eq_false {path : Text} (h : isDeclaration path = true) :
    isScript path = false := by
  unfold isDeclaration at h
  unfold isScript
  cases hs : Suffix.ofPath? path with
  | none => rfl
  | some s =>
    rw [hs, Option.any_some] at h
    simp [Suffix.isScript, h]

namespace Project

variable {p : Project}

/-- What lies below the directory of the packages is known to do so, if that directory is set to a
project path other than the root. -/
theorem inPackages_of_below (hroot : Path.toProject p.settings.packageRoot = p.settings.packageRoot)
    (hne : p.settings.packageRoot ≠ []) {path : Text} (hpath : Path.toProject path = path)
    (h : Path.Below p.settings.packageRoot path) : p.inPackages path = true := by
  have hfolder : p.packageFolder = p.settings.packageRoot := Path.trimEnd_slash hroot
  rw [inPackages, hfolder, Bool.or_eq_true, List.isPrefixOf_iff_prefix,
    Path.slash_prefix_iff hpath]
  exact .inr ⟨hne, hroot, h⟩

/-- No file of a package is opened as a model. -/
theorem isLive_eq_false (hp : p.files.ListsSegments)
    (hroot : Path.toProject p.settings.packageRoot = p.settings.packageRoot)
    (hne : p.settings.packageRoot ≠ []) {package : Text}
    (hfolder : Path.Below p.settings.packageRoot (p.folderOf package))
    (hinside : p.NamesInside package) {roots : List Text} {f : CorpusFile}
    (hf : f ∈ p.packageFiles roots package) : p.isLive f.path = false := by
  unfold isLive
  rcases below_of_mem_packageFiles hp hinside hf with ⟨-, hdeclaration⟩ | hbelow
  · rw [Path.isScript_eq_false hdeclaration, Bool.false_and]
  · obtain ⟨path, -, hpath⟩ := exists_read_of_mem_packageFiles hf
    have hnormal : Path.toProject f.path = f.path := by rw [hpath, Path.toProject_toProject]
    rw [inPackages_of_below hroot hne hnormal (hfolder.trans hbelow)]
    simp

end Project

namespace Session

variable {p : Project}

/-! ## Main result -/

/-- Loading the package of an external specifier feeds files below the stub directories of the
package and below its own directory, which lie strictly below the type roots and the directory of the
packages. It opens no models, provided that the directory of the packages is set as a project path and
is not the root of the project; the rest holds however it is set. -/
theorem loadPackage_stays_inside (hp : p.files.ListsSegments) {aliases : AliasResolver}
    {specifier : Text} (hkind : Specifier.kind aliases specifier = .external)
    (hne : Specifier.packageName specifier ≠ []) (hback : '\\' ∉ Specifier.packageName specifier)
    (hup : ¬ "/..".toList <:+ Specifier.packageName specifier)
    (hinside : p.NamesInside (Specifier.packageName specifier)) (s : Session) :
    let package := Specifier.packageName specifier
    let roots := s.config.options.typeRoots
    let t := (loadPackage p package s).2
    (∀ root ∈ roots, Path.Below root (Path.join root (Specifier.stubName package))) ∧
      Path.Below p.settings.packageRoot (Path.join p.settings.packageRoot package) ∧
      (∃ added, t.corpus = s.corpus ++ added ∧ ∀ f ∈ added,
        (∃ root ∈ roots, Path.Below (Path.join root (Specifier.stubName package)) f.path) ∨
          Path.Below (Path.join p.settings.packageRoot package) f.path) ∧
      (Path.toProject p.settings.packageRoot = p.settings.packageRoot →
        p.settings.packageRoot ≠ [] → t.engine.models = s.engine.models) := by
  intro package roots t
  have hwritten := Specifier.isWritten_packageName hkind hne
  have hfolder : Path.Below p.settings.packageRoot (p.folderOf package) :=
    hwritten.below_join hback hup _
  refine ⟨fun root _ => Path.below_join (hwritten.isName_stubName hback) root, hfolder, ?_⟩
  cases hloaded : s.isLoaded package with
  | true =>
    have ht : t = s := congrArg Prod.snd (loadPackage_of_isLoaded hloaded)
    exact ⟨⟨[], by simp [ht], by simp⟩, fun _ _ => by rw [ht]⟩
  | false =>
    have hbrings : Brings p (p.packageFiles roots package) (s.take package) t := by
      have h := brings_loadFresh (p := p) package (s.take package)
      rwa [← loadPackage_of_not_isLoaded hloaded] at h
    have hnew := fresh_subset s.corpus (p.packageFiles roots package)
    refine ⟨⟨_, hbrings.corpus, fun f hf => ?_⟩, fun hroot hrootNe => ?_⟩
    · exact (Project.below_of_mem_packageFiles hp hinside (hnew hf)).imp_left And.left
    · have hnone : (fresh s.corpus (p.packageFiles roots package)).filter
          (fun f => p.isLive f.path) = [] := by
        refine List.filter_eq_nil_iff.2 (fun f hf => ?_)
        rw [Project.isLive_eq_false hp hroot hrootNe hfolder hinside (hnew hf)]
        decide
      have hmodels := hbrings.models
      simp only [take, hnone, List.map_nil, List.append_nil] at hmodels
      exact hmodels

/-- A package whose manifest names a file in one of its directories. -/
def tidy : Tree :=
  .ofFiles [("node_modules/@s/p/package.json".toList, "\x7b\"types\":\"./src/p.ts\"\x7d".toList),
    ("node_modules/@s/p/src/p.ts".toList, [])]

/-- The project of the files of such a package. -/
def tidyProject : Project :=
  tidy.project (fun _ => []) {}

theorem loadPackage_tidy_stays_inside :
    Specifier.kind Config.default.aliases "@s/p/part".toList = .external ∧
      Specifier.packageName "@s/p/part".toList = "@s/p".toList ∧
      tidyProject.NamesInside "@s/p".toList ∧
      (loadPackage tidyProject "@s/p".toList new).2.has
        "node_modules/@s/p/src/p.ts".toList = true ∧
      (loadPackage tidyProject "@s/p".toList new).2.engine.models = [] := by
  have hp : tidyProject.files.ListsSegments :=
    Tree.listsSegments_store (Tree.isBuilt_ofFiles _).inOrder.normal
  have hkind : Specifier.kind Config.default.aliases "@s/p/part".toList = .external := by decide
  have hname : Specifier.packageName "@s/p/part".toList = "@s/p".toList := by decide
  have hinside : tidyProject.NamesInside "@s/p".toList := by decide +kernel
  have h := loadPackage_stays_inside hp hkind (by decide) (by decide) (by decide)
    (hname.symm ▸ hinside) new
  rw [hname] at h
  obtain ⟨-, -, -, hmodels⟩ := h
  refine ⟨hkind, hname, hinside, by decide +kernel, ?_⟩
  exact hmodels (by decide) (by decide)

/-- A package whose manifest names a script of the project. -/
def straying : Tree :=
  .ofFiles [("node_modules/p/package.json".toList,
      "\x7b\"types\":\"../../src/main.ts\"\x7d".toList),
    ("src/main.ts".toList, [])]

/-- A script of the project is fed for a package, and opened as a model, if the package's manifest
names it. -/
theorem not_loadPackage_stays_inside :
    let p := straying.project (fun _ => []) {}
    let package := ['p']
    let t := (loadPackage p package new).2
    Specifier.kind Config.default.aliases package = .external ∧
      Specifier.packageName package = package ∧
      new.has "src/main.ts".toList = false ∧ t.has "src/main.ts".toList = true ∧
      t.engine.models = [⟨"file:///src/main.ts".toList, []⟩] ∧
      (∀ root ∈ new.config.options.typeRoots,
        ¬ Path.Below (Path.join root (Specifier.stubName package)) "src/main.ts".toList) ∧
      ¬ Path.Below (Path.join p.settings.packageRoot package) "src/main.ts".toList := by
  decide +kernel

end Session

end SourceClosure
