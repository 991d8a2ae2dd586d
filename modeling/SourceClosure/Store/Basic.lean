import SourceClosure.Path.Basic

/-!
# Stores

A store is what a session sees of a project's files: it reads files, lists directories, and
tells whether something exists. Paths are relative to the project's root. `Access` is a record
of one question that was put to a store.
-/

namespace SourceClosure

/-! ## Faults -/

/-- Why a store failed on a path that it did not merely lack. -/
inductive FaultCause where
  /-- The path was marked to fail. -/
  | simulated
  /-- A directory was read like a file. -/
  | isDirectory
  /-- A file was used like a directory. -/
  | notDirectory
  /-- The content is not UTF-8. -/
  | notText
  /-- Too many symbolic links were followed. -/
  | linkLoop
  /-- A name is too long. -/
  | nameTooLong
  /-- A name holds the character NUL. -/
  | nulInName
  deriving DecidableEq, Repr

/-- The wording of a cause. -/
def FaultCause.reason : FaultCause → String
  | simulated => "simulated failure"
  | isDirectory => "Is a directory (os error 21)"
  | notDirectory => "Not a directory (os error 20)"
  | notText => "stream did not contain valid UTF-8"
  | linkLoop => "Too many levels of symbolic links (os error 40)"
  | nameTooLong => "File name too long (os error 36)"
  | nulInName => "file name contained an unexpected NUL byte"

/-- Why a store did not answer. -/
inductive StoreFault where
  /-- Nothing is there. -/
  | notFound (path : Text)
  /-- The path leads out of the project. -/
  | outsideRoot (path : Text)
  /-- Something is there but cannot be used. -/
  | failed (path : Text) (cause : FaultCause)
  deriving DecidableEq, Repr

/-- The wording of a fault. -/
def StoreFault.message : StoreFault → Text
  | notFound path => "not found: ".toList ++ path
  | outsideRoot path => "path escapes the project root: ".toList ++ path
  | failed path cause => "I/O error on ".toList ++ path ++ ": ".toList ++ cause.reason.toList

/-! ## Listings -/

/-- One line of a directory's listing. -/
structure Entry where
  name : Text
  isFolder : Bool
  deriving DecidableEq, Repr

/-- A listing with one more entry, kept in ascending order of names. Where the name is there
already, the entry is a directory if either of the two is. -/
def addEntry (e : Entry) : List Entry → List Entry
  | [] => [e]
  | f :: entries =>
    if e.name = f.name then ⟨f.name, f.isFolder || e.isFolder⟩ :: entries
    else if Text.before e.name f.name then e :: f :: entries
    else f :: addEntry e entries

/-- The listing that holds the given entries. -/
def listing (entries : List Entry) : List Entry :=
  entries.foldl (fun sorted e => addEntry e sorted) []

/-! ## Stores -/

/-- What can be asked of a project's files. -/
structure Store where
  /-- The content of a file. -/
  read : Text → Except StoreFault Text
  /-- The entries of a directory in ascending order of names. -/
  list : Text → Except StoreFault (List Entry)
  /-- Whether a file or directory is there; failures count as absence. -/
  present : Text → Bool
  /-- Whether a file is there. -/
  isFile : Text → Bool

/-- A question that was put to a store, with the path as it was given. -/
inductive Access where
  | read (path : Text)
  | list (path : Text)
  | present (path : Text)
  | isFile (path : Text)
  deriving DecidableEq, Repr

namespace Access

/-- The path that the question is about. -/
def path : Access → Text
  | read p | list p | present p | isFile p => p

/-- The path of a file that was to be read. -/
def read? : Access → Option Text
  | read p => some p
  | _ => none

/-- The paths of the files that were to be read, in order and in normal form, from a list of
questions of which the last comes first. -/
def reads (accesses : List Access) : List Text :=
  (accesses.reverse.filterMap read?).map Path.toProject

end Access

end SourceClosure
