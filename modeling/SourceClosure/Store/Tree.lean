import SourceClosure.Store.Basic

/-!
# Projects in memory

A tree holds the files of a project by their project paths, in ascending order. Directories
are implied by the files below them, so a name can be both a file and a directory. Paths can be
marked to fail: then reading and listing them does, while looking whether they exist does not.
-/

namespace SourceClosure

/-- A file and its content. -/
structure StoredFile where
  path : Text
  content : Text
  deriving DecidableEq, Repr

/-- The files of a project, in ascending order of their paths, and the paths that fail. -/
structure Tree where
  files : List StoredFile := []
  failing : List Text := []
  deriving DecidableEq, Repr

namespace Tree

/-! ## Changes -/

/-- The files with one more, which replaces a file of the same path. -/
def putFile (f : StoredFile) : List StoredFile → List StoredFile
  | [] => [f]
  | g :: files =>
    if f.path = g.path then f :: files
    else if Text.before f.path g.path then f :: g :: files
    else g :: putFile f files

/-- The tree with a file at a path. -/
def insert (t : Tree) (path content : Text) : Tree :=
  { t with files := putFile ⟨Path.toProject path, content⟩ t.files }

/-- The tree in which a path fails. -/
def failOn (t : Tree) (path : Text) : Tree :=
  { t with failing := Path.toProject path :: t.failing }

/-- The tree that holds the given files; later ones replace earlier ones. -/
def ofFiles (files : List (Text × Text)) : Tree :=
  files.foldl (fun t (path, content) => t.insert path content) {}

/-! ## Lookups by key -/

/-- The file at a project path. -/
def file? (t : Tree) (key : Text) : Option StoredFile :=
  t.files.find? (fun f => f.path = key)

/-- What the paths of the files below a directory start with. -/
def below (key : Text) : Text :=
  if key = [] then [] else key ++ ['/']

/-- Whether a project path is a directory: the root always is, and any other path is if the
first file at or behind its slash lies below it. -/
def isFolder (t : Tree) (key : Text) : Bool :=
  key == [] ||
    (t.files.find? (fun f => !Text.before f.path (key ++ ['/']))).any
      (fun f => (key ++ ['/']).isPrefixOf f.path)

/-- The entry of a directory that a file below it gives rise to, from the rest of its path. -/
def entryOf (rest : Text) : Entry :=
  match Text.splitOnce '/' rest with
  | some (name, _) => ⟨name, true⟩
  | none => ⟨rest, false⟩

/-- The entries of a directory. -/
def entries (t : Tree) (key : Text) : List Entry :=
  listing (t.files.filterMap (fun f => (Text.after? (below key) f.path).map entryOf))

/-! ## Answers -/

/-- The content of the file at a path. -/
def read (t : Tree) (path : Text) : Except StoreFault Text :=
  let key := Path.toProject path
  if t.failing.contains key then .error (.failed key .simulated)
  else match t.file? key with
    | some f => .ok f.content
    | none => .error (.notFound key)

/-- The entries of the directory at a path. -/
def list (t : Tree) (path : Text) : Except StoreFault (List Entry) :=
  let key := Path.toProject path
  if t.failing.contains key then .error (.failed key .simulated)
  else if t.isFolder key then .ok (t.entries key)
  else .error (.notFound key)

/-- Whether a file or directory is at a path. -/
def present (t : Tree) (path : Text) : Bool :=
  let key := Path.toProject path
  (t.file? key).isSome || t.isFolder key

/-- Whether a file is at a path. -/
def isFile (t : Tree) (path : Text) : Bool :=
  (t.file? (Path.toProject path)).isSome

/-- The tree as a store. -/
def store (t : Tree) : Store :=
  ⟨t.read, t.list, t.present, t.isFile⟩

end Tree

end SourceClosure
