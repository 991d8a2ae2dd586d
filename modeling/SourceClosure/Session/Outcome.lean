import SourceClosure.Text.Basic

/-!
# Outcomes

What the operations of a session report. None of these is an error: a miss, a skip or a
failure only means that the engine sees less.
-/

namespace SourceClosure

/-- Why a file or directory was passed over. -/
inductive Skip where
  /-- It is too deep. -/
  | depthExceeded
  /-- It is a declaration file of this many bytes, which is too many. -/
  | tooLarge (size : Nat)
  /-- Its name starts with a dot. -/
  | hidden
  /-- Directories of its name are not searched. -/
  | denylisted
  deriving DecidableEq, Repr

/-- What became of a request to load a source file. -/
inductive LoadOutcome where
  /-- The file at this path was registered. -/
  | loaded (path : Text)
  | alreadyLoaded
  /-- No candidate is a file, or the first one that is cannot be read. -/
  | notFound
  | skipped (reason : Skip)
  deriving DecidableEq, Repr

/-- What became of a request to load a package, and how many files were registered for it. -/
inductive PackageOutcome where
  /-- A stub directory was searched. -/
  | typeStubs (registered : Nat)
  /-- The package's manifest and its own directory were used. -/
  | manifest (registered : Nat)
  /-- The package was asked for before. -/
  | alreadyLoaded
  | notFound
  deriving DecidableEq, Repr

/-- How many files were registered. -/
def PackageOutcome.registered : PackageOutcome → Nat
  | typeStubs n | manifest n => n
  | alreadyLoaded | notFound => 0

/-- The tally of a search for declaration files. -/
structure CrawlReport where
  registered : Nat := 0
  /-- The paths that were passed over, in order. -/
  skipped : List (Text × Skip) := []
  /-- How many listings and reads failed. -/
  failed : Nat := 0
  deriving DecidableEq, Repr

end SourceClosure
