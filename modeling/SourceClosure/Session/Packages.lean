import SourceClosure.Manifest
import SourceClosure.Session.Crawl

/-!
# Loading packages

The declarations of a package come from its stub directory, if one of the type roots has one,
and otherwise from the package's own directory: from the file that its manifest names, and from
a shallow search. A package is asked for at most once in a session.
-/

namespace SourceClosure

namespace Session

/-! ## One package -/

/-- The first of the directories that is there. -/
def firstPresent (p : Project) : List Text → Session → Option Text × Session
  | [], s => (none, s)
  | d :: directories, s =>
    if p.files.present d then (some d, s.note (.present d))
    else firstPresent p directories (s.note (.present d))

/-- The declaration file that a package in a directory names by its manifest, or else the usual
one. -/
def entryPath (directory : Text) (manifest : Option Manifest) : Text :=
  match manifest.bind Manifest.typesEntry? with
  | none => Path.join directory "index.d.ts".toList
  | some entry =>
    let path := Path.join directory (Path.stripHere entry)
    if Path.hasSuffix path then path else path ++ Suffix.dts.text

/-- The manifest of the package in a directory, if it can be read. -/
def readManifest (p : Project) (directory : Text) (s : Session) :
    Option Manifest × Session :=
  let path := Path.join directory Manifest.fileName
  ((p.files.read path).toOption.bind Manifest.parse?, s.note (.read path))

/-- Registers the file at a path, if it is there and can be read. -/
def registerEntry (p : Project) (path : Text) (s : Session) : Session :=
  let s := s.note (.present path)
  if p.files.present path then
    let s := s.note (.read path)
    match p.files.read path with
    | .ok content => (s.register p path content).2
    | .error _ => s
  else s

/-- Loads the package in a directory from its manifest and its files; how many were
registered. -/
def loadFolder (p : Project) (directory : Text) (s : Session) : Nat × Session :=
  let found := readManifest p directory s
  let entered := registerEntry p (entryPath directory found.1) found.2
  let crawled := crawl p directory p.settings.packageDepth entered
  (crawled.2.corpus.length - s.corpus.length, crawled.2)

/-- Loads a package that was not asked for before. -/
def loadFresh (p : Project) (name : Text) (s : Session) : PackageOutcome × Session :=
  let stubs := s.config.options.typeRoots.map (fun root =>
    Path.join root (Specifier.stubName name))
  let stub := firstPresent p stubs s
  match stub.1 with
  | some directory =>
    let crawled := crawl p directory p.settings.typeStubDepth stub.2
    (.typeStubs crawled.1.registered, crawled.2)
  | none =>
    let directory := Path.join p.settings.packageRoot name
    let s := stub.2.note (.present directory)
    if p.files.present directory then
      let result := loadFolder p directory s
      (.manifest result.1, result.2)
    else (.notFound, s)

/-- Loads a package, unless it was asked for before. -/
def loadPackage (p : Project) (name : Text) (s : Session) : PackageOutcome × Session :=
  if s.isLoaded name then (.alreadyLoaded, s)
  else
    loadFresh p name
      { s with loaded := name :: s.loaded, discovered := s.discovered.erase name }

/-! ## Many packages -/

/-- Loads packages one after the other. -/
def loadEach (p : Project) (names : List Text) (s : Session) : Session :=
  names.foldl (fun s name => (loadPackage p name s).2) s

/-- The packages that the entries of a type root are stubs for. -/
def stubPackages (entries : List Entry) : List Text :=
  (entries.filter (fun e => e.isFolder && e.name.head? != some '.')).map
    (fun e => Specifier.packageOfStub e.name)

/-- Loads every package that has stubs in a type root. -/
def loadTypeRoot (p : Project) (s : Session) (root : Text) : Session :=
  let s := s.note (.list root)
  match p.files.list root with
  | .error _ => s
  | .ok entries => loadEach p (stubPackages entries) s

/-- Loads the packages that come first by the settings, and then every package that has stubs;
how many files were registered. -/
def preload (p : Project) (s : Session) : Nat × Session :=
  let first := loadEach p p.settings.priorityPackages s
  let all := first.config.options.typeRoots.foldl (loadTypeRoot p) first
  (all.corpus.length - s.corpus.length, all)

/-- Loads the packages of a list that sources mention, of which `discovered` keeps those that are
left; how many files were registered. -/
def loadMentioned (p : Project) : List Text → Session → Nat × Session
  | [], s => (0, s)
  | name :: names, s =>
    let result := loadPackage p name { s with discovered := names }
    let others := loadMentioned p names result.2
    (result.1.registered + others.1, others.2)

/-- Loads every package that sources mention; how many files were registered. -/
def loadDiscovered (p : Project) (s : Session) : Nat × Session :=
  loadMentioned p s.discovered s

end Session

end SourceClosure
