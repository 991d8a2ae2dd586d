import SourceClosure.Command.Run
import SourceClosure.Store.Record

/-!
# The program

The command on the machine's own disk. A session is pure, so it cannot look at the disk itself:
it is run on a record of answers, the questions that the record does not answer are put to the
disk, and so on until no question is left open.
-/

namespace SourceClosure

namespace Program

/-! ## The disk -/

/-- What is at a path, links followed. -/
def kindAt (path : Text) : IO (Option IO.FS.FileType) := do
  try
    let real ← IO.FS.realPath (String.ofList path)
    return some (← real.metadata).type
  catch _ => return none

/-- The content of the file at a path. -/
def contentAt (path : Text) : IO (Option Text) := do
  try
    return some (← IO.FS.readFile (String.ofList path)).toList
  catch _ => return none

/-- Whether a directory is at a path. -/
def isFolderAt (path : Text) : IO Bool := do
  return (← kindAt path) == some .dir

/-- The entries of the directory at a path. -/
def entriesAt (path : Text) : IO (Option (List Entry)) := do
  try
    let real ← IO.FS.realPath (String.ofList path)
    let mut entries := []
    for e in ← real.readDir do
      let name := e.fileName.toList
      entries := ⟨name, ← isFolderAt (path ++ '/' :: name)⟩ :: entries
    return some (listing entries)
  catch _ => return none

/-! ## Questions -/

/-- What is found on the disk at a project's path; a path that leads out of the project finds
nothing. -/
def find {α : Type} (look : Text → IO (Option α)) (project path : Text) : IO (Option α) :=
  match Disk.confine? path with
  | some names => look (Path.ofSegments (project :: names))
  | none => return none

/-- The record with the disk's answer to one more question about a project. -/
def ask (project : Text) (r : Record) : Access → IO Record
  | .read path => return r.putContent path (← find contentAt project path)
  | .list path => return r.putListing path (← find entriesAt project path)
  | .present path => return r.putPresence path (← find kindAt project path).isSome
  | .isFile path => return r.putFileKind path ((← find kindAt project path) == some .file)

/-- The session on a project, once the record answers all of its questions. -/
partial def settle (project : Text) (session : Store → Session) (r : Record) : IO Session := do
  let s := session r.store
  match r.unknown s.accesses with
  | [] => return s
  | questions => settle project session (← questions.foldlM (ask project) r)

/-! ## The run -/

/-- What the program prints for a command line. -/
def run (words : List Text) : IO (Except Command.Failure Text) := do
  match Arguments.parse words with
  | .error stop => return Command.stopped stop
  | .ok a =>
    let isFolder ← isFolderAt a.project
    let content ← match a.settings with
      | some path => contentAt path
      | none => pure none
    match Command.prepare (fun _ => isFolder) (fun _ => content) a with
    | .error failure => return .error failure
    | .ok settings =>
      let s ← settle a.project (Command.session · settings a) {}
      return .ok (Command.reportText a s)

end Program

end SourceClosure

/-- The program. -/
def main (words : List String) : IO UInt32 := do
  match ← SourceClosure.Program.run (words.map String.toList) with
  | .ok output =>
    IO.print (String.ofList output)
    return 0
  | .error failure =>
    IO.eprintln (String.ofList failure.message)
    return failure.exitCode.toUInt32
