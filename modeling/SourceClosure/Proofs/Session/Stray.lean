import SourceClosure.Proofs.Config.Answers
import SourceClosure.Proofs.Config.Fallback
import SourceClosure.Proofs.Path.Join
import SourceClosure.Proofs.Session.Import
import SourceClosure.Session.Operation

/-!
# Stray paths

A session puts together the paths that it asks a store for in several places, from names in source
text, in documents and in manifests. Most of them are project paths, but not all: each of the places
where one may not be is a constructor of `Stray`, which says what text of the project, or which
setting or operation, the path is made of. The paths that are made in each of these places are
project paths or stray.
-/

namespace SourceClosure

/-! ## What a run may need -/

/-- The configurations that a session may have, before and after it loads one. -/
def Project.MayConfigure (p : Project) (c : Config) : Prop :=
  c = .default ∨ c = (Config.load p.files p.settings.packageRoot).1

/-- The path that an operation hands in to be loaded as a source. -/
def Operation.source? : Operation → Option Text
  | start entry => some entry
  | activate path => some path
  | loadSource path _ => some path
  | _ => none

/-- The stems that a run may load sources for: those of the operations' paths, and those that the
specifiers of files stand for. -/
inductive MayLoad (p : Project) (operations : List Operation) : Text → Prop where
  | entry {operation : Operation} {path : Text} : operation ∈ operations →
      operation.source? = some path → MayLoad p operations (Path.toProject path)
  | specifier {path content specifier stem : Text} {c : Config} : Path.NamesFile path →
      p.files.read path = .ok content → specifier ∈ p.specifiersIn content → p.MayConfigure c →
      stem ∈ Specifier.stems c.aliases (Path.directory path) specifier →
      MayLoad p operations stem

/-- The packages that a run may load: those of the settings and of the operations, those that have
stubs, and those that the specifiers of files belong to. -/
inductive MayNeed (p : Project) (operations : List Operation) : Text → Prop where
  | priority {name : Text} : name ∈ p.settings.priorityPackages → MayNeed p operations name
  | operation {name : Text} : .loadPackage name ∈ operations → MayNeed p operations name
  | stubs {root name : Text} {entries : List Entry} {c : Config} : p.MayConfigure c →
      root ∈ c.options.typeRoots → p.files.list root = .ok entries →
      name ∈ Session.stubPackages entries → MayNeed p operations name
  | specifier {path content specifier : Text} {c : Config} : p.files.read path = .ok content →
      specifier ∈ p.specifiersIn content → p.MayConfigure c →
      Specifier.kind c.aliases specifier = .external →
      MayNeed p operations (Specifier.packageName specifier)

/-! ## What a run may ask for -/

/-- The manifest of the package in a directory, if there is one that can be read. -/
def Project.manifestAt (p : Project) (directory : Text) : Option Manifest :=
  (p.files.read (Path.join directory Manifest.fileName)).toOption.bind Manifest.parse?

/-- The directory of a package. -/
def Project.folderOf (p : Project) (package : Text) : Text :=
  Path.join p.settings.packageRoot package

/-- The directory of packages, the name of the package or the file that its manifest names starts at
the root of a file system. -/
def Project.FromRoot (p : Project) (package : Text) : Prop :=
  Path.FromRoot p.settings.packageRoot ∨ Path.FromRoot package ∨
    ∃ entry ∈ (p.manifestAt (p.folderOf package)).bind Manifest.typesEntry?,
      Path.FromRoot (Path.stripHere entry)

instance (p : Project) (package : Text) : Decidable (p.FromRoot package) :=
  inferInstanceAs (Decidable (_ ∨ _ ∨ ∃ entry ∈ _, _))

/-- The paths of a package that are put together from its name: its directory, its manifest and the
file that its declarations start with. -/
def Project.pathsOf (p : Project) (package : Text) : List Text :=
  [p.folderOf package, Path.join (p.folderOf package) Manifest.fileName,
    Session.entryPath (p.folderOf package) (p.manifestAt (p.folderOf package))]

/-- The paths that a run may put to the store though they need not be project paths. -/
inductive Stray (p : Project) (operations : List Operation) : Text → Prop where
  /-- A candidate of a stem that an operation hands in as it is. -/
  | probed {stem c : Text} : .probe stem ∈ operations → c ∈ Path.candidates stem →
      Stray p operations c
  /-- A candidate of a stem that is little more than a suffix. -/
  | candidate {stem c : Text} : MayLoad p operations stem → ¬ Path.IsPlain stem →
      c ∈ Path.candidates stem → Stray p operations c
  /-- A document that is named like one of a package. -/
  | base {start path name : Text} {d : Document} : start ∈ Config.documentNames →
      path ∈ Config.leadsTo p.files p.settings.packageRoot start →
      Config.readDocument p.files path = .ok d → name ∈ d.extended →
      (Specifier.isRelative name || Path.isRooted name) = false →
      Stray p operations (Config.basePath (Path.directory path) p.settings.packageRoot name)
  /-- The stubs of a package whose name starts at the root of a file system. -/
  | stubs {root package : Text} {c : Config} : MayNeed p operations package → p.MayConfigure c →
      root ∈ c.options.typeRoots → Path.FromRoot (Specifier.stubName package) →
      Stray p operations (Path.join root (Specifier.stubName package))
  /-- A path of a package that starts at the root of a file system, or whose manifest does. -/
  | package {package path : Text} : MayNeed p operations package → p.FromRoot package →
      path ∈ p.pathsOf package → Stray p operations path

/-- The path may be put to the store in a run. -/
def MayAsk (p : Project) (operations : List Operation) (path : Text) : Prop :=
  Path.toProject path = path ∨ Stray p operations path

/-- All questions are about paths that may be put to the store. -/
def AsksWell (p : Project) (operations : List Operation) (accesses : List Access) : Prop :=
  ∀ a ∈ accesses, MayAsk p operations a.path

variable {p : Project} {operations : List Operation}

theorem AsksWell.cons {a : Access} {accesses : List Access} (ha : MayAsk p operations a.path)
    (h : AsksWell p operations accesses) : AsksWell p operations (a :: accesses) :=
  List.forall_mem_cons.2 ⟨ha, h⟩

/-! ## Configuration -/

namespace Config

/-- Whatever a document extends may be asked for. -/
theorem mayAsk_of_mem_basePaths {start path base : Text} (hstart : start ∈ documentNames)
    (hpath : path ∈ leadsTo p.files p.settings.packageRoot start) {d : Document}
    (hread : readDocument p.files path = .ok d)
    (hbase : base ∈ basePaths p.settings.packageRoot path d) : MayAsk p operations base := by
  obtain ⟨name, hname, rfl⟩ := List.mem_map.1 hbase
  rw [List.mem_reverse] at hname
  cases hkind : Specifier.isRelative name || Path.isRooted name with
  | false => exact .inr (.base hstart hpath hread hname hkind)
  | true =>
    have hproject : Path.toProject (rebasePath (Path.directory path) name) =
        rebasePath (Path.directory path) name := Path.toProject_toProject _
    refine .inl ?_
    simp only [basePath, hkind, if_true]
    split
    · exact hproject
    · exact Path.toProject_append_suffix hproject .json

theorem asksWell_loadChain {levels : Nat} {start path : Text} (hstart : start ∈ documentNames)
    (hpath : path ∈ leadsTo p.files p.settings.packageRoot start)
    (hask : MayAsk p operations path) {w : Walk} (hw : AsksWell p operations w.accesses) :
    AsksWell p operations
      (loadChain p.files p.settings.packageRoot levels path w).2.accesses := by
  induction levels generalizing path w with
  | zero => exact hw
  | succ levels ih =>
    by_cases hmet : path ∈ w.visited
    · rwa [loadChain_of_mem hmet]
    cases hread : readDocument p.files path with
    | error failure =>
      rw [loadChain_of_error hmet hread]
      exact hw.cons hask
    | ok d =>
      have hmerge {bases : List Text}
          (hbases : ∀ base ∈ bases, base ∈ basePaths p.settings.packageRoot path d)
          {o : RawOptions} {w : Walk} (hw : AsksWell p operations w.accesses) :
          AsksWell p operations (mergeBases (loadChain p.files p.settings.packageRoot levels)
            bases o w).2.accesses := by
        induction bases generalizing o w with
        | nil => exact hw
        | cons base bases ihBases =>
          obtain ⟨hbase, hbases⟩ := List.forall_mem_cons.1 hbases
          rw [mergeBases_cons]
          refine ihBases hbases (ih (hpath.tail ⟨d, hread, hbase⟩) ?_ hw)
          exact mayAsk_of_mem_basePaths hstart hpath hread hbase
      rw [loadChain_of_ok hmet hread]
      exact hmerge (fun _ hbase => hbase) (hw.cons hask)

theorem asksWell_ofFirst {names : List Text} (hnames : ∀ name ∈ names, name ∈ documentNames)
    {accesses : List Access} (h : AsksWell p operations accesses) :
    AsksWell p operations (ofFirst p.files p.settings.packageRoot names accesses).2 := by
  have hproject : ∀ name ∈ documentNames, Path.toProject name = name := by decide
  induction names generalizing accesses with
  | nil => exact h
  | cons name names ih =>
    obtain ⟨hname, hnames⟩ := List.forall_mem_cons.1 hnames
    have hask : MayAsk p operations name := .inl (hproject name hname)
    have hpresent := AsksWell.cons (a := .present name) hask h
    unfold ofFirst
    split
    · rw [ofDocument_accesses]
      exact asksWell_loadChain (w := ⟨[], _⟩) hname .refl hask hpresent
    · exact ih hnames hpresent

theorem asksWell_load : AsksWell p operations (load p.files p.settings.packageRoot).2 :=
  asksWell_ofFirst (fun _ h => h) (fun _ h => nomatch h)

/-! ### Type roots -/

/-- The type roots, if there are any, are project paths. -/
def HasProjectRoots (o : RawOptions) : Prop :=
  ∀ roots ∈ o.typeRoots, ∀ root ∈ roots, Path.toProject root = root

theorem hasProjectRoots_empty : HasProjectRoots {} :=
  fun _ h => nomatch h

theorem HasProjectRoots.inherit {o b : RawOptions} (ho : HasProjectRoots o)
    (hb : HasProjectRoots b) : HasProjectRoots (o.inherit b) := by
  intro roots h
  cases hroots : o.typeRoots with
  | none => exact hb roots (by simpa [RawOptions.inherit, hroots] using h)
  | some own => exact ho roots (by simpa [RawOptions.inherit, hroots] using h)

theorem hasProjectRoots_ownOptions (path : Text) (d : Document) :
    HasProjectRoots (ownOptions path d) := by
  intro roots h root hroot
  obtain ⟨written, -, rfl⟩ := Option.map_eq_some_iff.1 h
  obtain ⟨root, -, rfl⟩ := List.mem_map.1 hroot
  exact Path.toProject_toProject _

theorem hasProjectRoots_loadChain {files : Store} {packageRoot : Text} {levels : Nat} {path : Text}
    {w : Walk} : HasProjectRoots (given (loadChain files packageRoot levels path w).1) := by
  induction levels generalizing path w with
  | zero => exact hasProjectRoots_empty
  | succ levels ih =>
    by_cases hmet : path ∈ w.visited
    · rw [loadChain_of_mem hmet]
      exact hasProjectRoots_empty
    cases hread : readDocument files path with
    | error failure =>
      rw [loadChain_of_error hmet hread]
      exact hasProjectRoots_empty
    | ok d =>
      have hmerge {bases : List Text} {o : RawOptions} {w : Walk} (ho : HasProjectRoots o) :
          HasProjectRoots (mergeBases (loadChain files packageRoot levels) bases o w).1 := by
        induction bases generalizing o w with
        | nil => exact ho
        | cons base bases ihBases =>
          rw [mergeBases_cons]
          exact ihBases (ho.inherit ih)
      rw [loadChain_of_ok hmet hread]
      exact hmerge (hasProjectRoots_ownOptions path d)

/-- The type roots of a configuration are project paths. -/
def RootsInProject (c : Config) : Prop :=
  ∀ root ∈ c.options.typeRoots, Path.toProject root = root

theorem rootsInProject_default : RootsInProject default := by
  unfold RootsInProject
  decide

theorem rootsInProject_ofRaw {o : RawOptions} (h : HasProjectRoots o) (source : ConfigSource) :
    RootsInProject (.ofOptions (.ofRaw o) source) := by
  intro root hroot
  rw [Config.ofOptions] at hroot
  cases hroots : o.typeRoots with
  | none =>
    have hdefault : root ∈ CompilerOptions.default.typeRoots := by
      simpa [CompilerOptions.ofRaw, hroots] using hroot
    exact rootsInProject_default root hdefault
  | some roots => exact h roots hroots root (by simpa [CompilerOptions.ofRaw, hroots] using hroot)

theorem rootsInProject_ofFirst {files : Store} {packageRoot : Text} {names : List Text}
    {accesses : List Access} : RootsInProject (ofFirst files packageRoot names accesses).1 := by
  induction names generalizing accesses with
  | nil => exact rootsInProject_default
  | cons name names ih =>
    unfold ofFirst
    split
    · have hroots : HasProjectRoots (given (loadChain files packageRoot (maxExtendsDepth + 1) name
          ⟨[], .present name :: accesses⟩).1) := hasProjectRoots_loadChain
      unfold ofDocument
      dsimp only
      split
      · next o ho =>
        rw [ho] at hroots
        exact rootsInProject_ofRaw hroots _
      · exact rootsInProject_default
    · exact ih

theorem rootsInProject_load {files : Store} {packageRoot : Text} :
    RootsInProject (load files packageRoot).1 :=
  rootsInProject_ofFirst

end Config

theorem Project.MayConfigure.rootsInProject {c : Config} (h : p.MayConfigure c) :
    c.RootsInProject := by
  rcases h with rfl | rfl
  · exact Config.rootsInProject_default
  · exact Config.rootsInProject_load

theorem Project.MayConfigure.aliases {c : Config} (h : p.MayConfigure c) :
    c.aliases = .ofTable c.options.paths c.options.baseUrl := by
  rcases h with rfl | rfl
  · rfl
  · exact Config.load_aliases _ _

/-! ## Sources -/

theorem MayLoad.toProject {stem : Text} (h : MayLoad p operations stem) :
    Path.toProject stem = stem := by
  cases h with
  | entry => exact Path.toProject_toProject _
  | specifier hname _ _ _ hstem => exact Specifier.toProject_of_mem_stems hname hstem

/-- The candidates of a stem that may be loaded may be asked for. -/
theorem MayLoad.mayAsk {stem c : Text} (h : MayLoad p operations stem)
    (hc : c ∈ Path.candidates stem) : MayAsk p operations c := by
  by_cases hplain : Path.IsPlain stem
  · exact .inl (hplain.toProject_candidate h.toProject hc)
  · exact .inr (.candidate h hplain hc)

/-! ## Packages -/

/-- What a package's declarations start with is a project path if neither the package's directory
nor the file that the manifest names starts at the root of a file system. -/
theorem Session.toProject_entryPath {directory : Text} (hdirectory : ¬ Path.FromRoot directory)
    {manifest : Option Manifest} (hentry : ∀ entry ∈ manifest.bind Manifest.typesEntry?,
      ¬ Path.FromRoot (Path.stripHere entry)) :
    Path.toProject (entryPath directory manifest) = entryPath directory manifest := by
  unfold entryPath
  split
  · exact Path.toProject_join hdirectory (by decide)
  · next entry h =>
    have hjoin := Path.toProject_join hdirectory (hentry entry h)
    dsimp only
    split
    · exact hjoin
    · exact Path.toProject_append_suffix hjoin .dts

/-- The paths of a package that may be needed may be asked for. -/
theorem MayNeed.mayAsk {package path : Text} (h : MayNeed p operations package)
    (hpath : path ∈ p.pathsOf package) : MayAsk p operations path := by
  by_cases hfromRoot : p.FromRoot package
  · exact .inr (.package h hfromRoot hpath)
  · simp only [Project.FromRoot, not_or, not_exists, not_and] at hfromRoot
    obtain ⟨hroot, hname, hentry⟩ := hfromRoot
    have hfolder : Path.toProject (p.folderOf package) = p.folderOf package :=
      Path.toProject_join hroot hname
    have hinside := Path.not_fromRoot_of_toProject hfolder
    simp only [Project.pathsOf, List.mem_cons, List.not_mem_nil, or_false] at hpath
    rcases hpath with rfl | rfl | rfl
    · exact .inl hfolder
    · exact .inl (Path.toProject_join hinside (by decide))
    · exact .inl (Session.toProject_entryPath hinside hentry)

/-- The stub directories of a package that may be needed may be asked for. -/
theorem MayNeed.mayAsk_stubs {package root : Text} (h : MayNeed p operations package) {c : Config}
    (hc : p.MayConfigure c) (hroot : root ∈ c.options.typeRoots) :
    MayAsk p operations (Path.join root (Specifier.stubName package)) := by
  have hproject := hc.rootsInProject root hroot
  by_cases hname : Path.FromRoot (Specifier.stubName package)
  · exact .inr (.stubs h hc hroot hname)
  · exact .inl (Path.toProject_join (Path.not_fromRoot_of_toProject hproject) hname)

end SourceClosure
