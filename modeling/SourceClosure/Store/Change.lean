import SourceClosure.Store.Disk

/-!
# Changes on disk

Directories, files and links are put into a project on disk. The directories above them that are
missing are created first, from the top, and a change for which there is no place is not made: a
file does not become a directory, a directory does not become a file, and a path that runs
through a file or through a link that leads nowhere is left alone. A file is saved through links,
where the last link may lead to a file that is not there yet; a directory or a link is put in a
directory by a name that stands for nothing. Nothing is changed out of the disk.
-/

namespace SourceClosure

/-! ## Nodes -/

namespace Node

/-- The children with a name standing for `child`. -/
def putChild (name : Text) (child : Node) (children : List (Text × Node)) :
    List (Text × Node) :=
  (name, child) :: children.filter (fun c => c.1 ≠ name)

/-- The node with `new` where the names lead, if they lead through directories. -/
def put (new : Node) : List Text → Node → Node
  | [], _ => new
  | name :: names, folder children =>
    folder (putChild name (put new names ((children.lookup name).getD empty)) children)
  | _, n => n

end Node

namespace Disk

/-! ## One node -/

/-- The disk with `new` at a place, unless that is out of the disk. -/
def put (d : Disk) (new : Node) : Place → Disk
  | .inside names => { d with root := Node.put new names.reverse d.root }
  | .outside => d

/-- The disk with `new` by a name in the directory at a place, unless the name stands for
something there already. -/
def add (d : Disk) (new : Node) (place : Place) (name : Text) : Disk :=
  if (d.node? (place.child name)).isNone then d.put new (place.child name) else d

/-! ## Directories -/

/-- The names on a path that stand for a step down or up. -/
def steps (path : Text) : List Text :=
  (Text.split '/' path).filter (fun name => !(name = [] || name = Path.here))

/-- The disk with a directory by a name in the one at a place, if nothing is wrong with the name
but that it is missing. -/
def addFolderIn (d : Disk) (place : Place) (name : Text) : Disk :=
  match d.walk false maxLinks place [name] with
  | .error .missing => d.add .empty place name
  | _ => d

/-- The disk with the directories that are missing along the names from a place on, as far as the
names lead then. -/
def addFoldersFrom : Place → List Text → Disk → Disk
  | _, [], d => d
  | place, name :: names, d =>
    let d := d.addFolderIn place name
    match d.walk false maxLinks place [name] with
    | .ok next => addFoldersFrom next names d
    | .error _ => d

/-- The disk with the directories that are missing along the names from the project's. If
something else than a missing name is wrong with the names, none is created. -/
def addFolders (d : Disk) (names : List Text) : Disk :=
  match d.placeAt false d.home names, d.placeAt false d.home [] with
  | .error .missing, .ok place => addFoldersFrom place names d
  | _, _ => d

/-- The disk with a directory at a path in the project. -/
def addFolder (d : Disk) (path : Text) : Disk :=
  if Path.isAbsolute path then d else d.addFolders (steps path)

/-! ## Files and links -/

/-- The disk with this content in the file that a path in the project leads to, which is created
if it is not there. -/
def saveFile (d : Disk) (path : Text) (content : Option Text) : Disk :=
  if Path.isAbsolute path then d
  else
    let d := d.addFolders (steps path).dropLast
    match d.placeAt true d.home (Text.split '/' path) with
    | .ok place =>
      match d.node? place with
      | none | some (.file _) => d.put (.file content) place
      | some _ => d
    | .error _ => d

/-- Whether a link can have this target. -/
def isTarget (target : Text) : Bool :=
  !target.isEmpty && !target.contains '\x00' && Text.byteLength target ≤ maxPathLength

/-- The disk with a link at a path in the project. -/
def addLink (d : Disk) (path target : Text) : Disk :=
  if Path.isAbsolute path then d
  else
    let d := d.addFolders (steps path).dropLast
    let names := Text.split '/' path
    match d.placeAt false d.home names, d.placeAt false d.home names.dropLast with
    | .error .missing, .ok place =>
      if isTarget target then d.add (.link target) place (names.getLastD []) else d
    | _, _ => d

end Disk

end SourceClosure
