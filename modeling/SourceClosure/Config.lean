import SourceClosure.Options.Basic
import SourceClosure.Options.Document
import SourceClosure.Specifier.Basic
import SourceClosure.Store.Basic

/-!
# Project configuration

A project's configuration is the first document of `documentNames` that is there. A document
may extend others, and those again others; an option that a document leaves unset is taken
from the documents it extends, the last of them first. A document that was looked at before
during the same load contributes nothing when it is met again, which ends cycles, and neither
does one that cannot be read or parsed, or that is too many steps away. If the first document
itself fails, the defaults apply.
-/

namespace SourceClosure

/-! ## Result -/

/-- Where the compiler options come from. -/
inductive ConfigSource where
  /-- From the document at this path and those it extends. -/
  | document (path : Text)
  /-- From nowhere: all options have their defaults. -/
  | builtIn
  deriving DecidableEq, Repr

/-- The configuration of a project. -/
structure Config where
  options : CompilerOptions
  aliases : AliasResolver
  source : ConfigSource
  deriving DecidableEq, Repr

namespace Config

/-- The configuration with these options and the aliases that they declare. -/
def ofOptions (o : CompilerOptions) (source : ConfigSource) : Config :=
  ⟨o, .ofTable o.paths o.baseUrl, source⟩

/-- The configuration without any document. -/
def default : Config := .ofOptions .default .builtIn

/-! ## Paths in documents -/

/-- The paths of the documents that may hold the configuration, best first. -/
def documentNames : List Text :=
  ["tsconfig.json".toList, "jsconfig.json".toList]

/-- The longest chain of steps from a document to one that it extends. -/
def maxExtendsDepth : Nat := 8

/-- A path in a document of a directory, as a project path. -/
def rebasePath (directory path : Text) : Text :=
  Path.toProject (Path.join directory path)

/-- The options of a document of a directory, with their paths relative to the root. -/
def rebase (directory : Text) (o : RawOptions) : RawOptions :=
  { o with
    baseUrl := o.baseUrl.map (rebasePath directory)
    typeRoots := o.typeRoots.map (List.map (rebasePath directory)) }

/-- The suffix of documents. -/
def documentSuffix : Text := ".json".toList

/-- The path of a document that one of a directory extends. A relative or absolute name is taken
as a path; any other one is looked for among the packages. -/
def basePath (directory packageRoot name : Text) : Text :=
  if Specifier.isRelative name || Path.isRooted name then
    let path := rebasePath directory name
    if documentSuffix.isSuffixOf path then path else path ++ documentSuffix
  else if documentSuffix.isSuffixOf name then packageRoot ++ '/' :: name
  else packageRoot ++ '/' :: name ++ "/tsconfig.json".toList

/-! ## Loading -/

/-- Why a document contributes nothing. -/
inductive Failure where
  /-- It was looked at before, or is too many steps away. -/
  | chained
  | unreadable (fault : StoreFault)
  | malformed (fault : Json.Fault)
  deriving DecidableEq, Repr

/-- What is remembered during a load: the documents looked at, and the questions put to the
store, each the last first. -/
structure Walk where
  visited : List Text := []
  accesses : List Access := []
  deriving DecidableEq, Repr

/-- The document at a path. -/
def readDocument (files : Store) (path : Text) : Except Failure Document :=
  match files.read path with
  | .error fault => .error (.unreadable fault)
  | .ok content =>
    match Document.parse content with
    | .error fault => .error (.malformed fault)
    | .ok d => .ok d

/-- The options of a document with those of the bases merged in, base by base, where `load` loads
a base. -/
def mergeBases (load : Text → Walk → Except Failure RawOptions × Walk)
    (bases : List Text) (o : RawOptions) (w : Walk) : RawOptions × Walk :=
  bases.foldl
    (fun (o, w) base =>
      let loaded := load base w
      match loaded.1 with
      | .ok inherited => (o.inherit inherited, loaded.2)
      | .error _ => (o, loaded.2))
    (o, w)

/-- The options of the document at a path and of those it extends, at most `levels` documents
deep. -/
def loadChain (files : Store) (packageRoot : Text) :
    (levels : Nat) → Text → Walk → Except Failure RawOptions × Walk
  | 0, _, w => (.error .chained, w)
  | levels + 1, path, w =>
    if w.visited.contains path then (.error .chained, w)
    else
      let w := ⟨path :: w.visited, .read path :: w.accesses⟩
      match readDocument files path with
      | .error failure => (.error failure, w)
      | .ok d =>
        let directory := Path.directory path
        let bases := d.extended.reverse.map (basePath directory packageRoot)
        let merged := mergeBases (loadChain files packageRoot levels) bases
          (rebase directory d.rawOptions) w
        (.ok merged.1, merged.2)

/-- The configuration by the document at a path. -/
def ofDocument (files : Store) (packageRoot path : Text) (accesses : List Access) :
    Config × List Access :=
  let loaded := loadChain files packageRoot (maxExtendsDepth + 1) path ⟨[], accesses⟩
  match loaded.1 with
  | .ok o => (.ofOptions (.ofRaw o) (.document path), loaded.2.accesses)
  | .error _ => (default, loaded.2.accesses)

/-- The configuration by the first of the documents that is there. -/
def ofFirst (files : Store) (packageRoot : Text) :
    List Text → List Access → Config × List Access
  | [], accesses => (default, accesses)
  | name :: names, accesses =>
    if files.present name then
      ofDocument files packageRoot name (.present name :: accesses)
    else ofFirst files packageRoot names (.present name :: accesses)

/-- The configuration of a project, and the questions put to its store, the last first. -/
def load (files : Store) (packageRoot : Text) : Config × List Access :=
  ofFirst files packageRoot documentNames []

end Config

end SourceClosure
