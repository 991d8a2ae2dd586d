import SourceClosure.Store.Basic

/-!
# Projects on disk

A disk is a directory with files, directories and symbolic links below it, and the project is in
that directory or in one that a path leads to from there. A project's path is confined before it
is looked up: its segments are worked off, and a path that is absolute or that climbs above the
project's root is refused. What is left is walked from the project's directory, and links are
followed on the way, at most forty of them. Links may lead out of the disk; outside there is
nothing to see but an empty directory.
-/

namespace SourceClosure

/-! ## Nodes -/

/-- What a name in a directory stands for. -/
inductive Node where
  /-- A file, with its content if that is UTF-8. -/
  | file (content : Option Text)
  /-- A directory with its names. -/
  | folder (children : List (Text × Node))
  /-- A symbolic link. -/
  | link (target : Text)

namespace Node

/-- The directory without any names. -/
def empty : Node := folder []

/-- What a name stands for in a directory. -/
def child? (n : Node) (name : Text) : Option Node :=
  match n with
  | folder children => children.lookup name
  | _ => none

/-- What the names lead to, one below the other, without following links. -/
def at? (n : Node) (names : List Text) : Option Node :=
  names.foldlM child? n

end Node

/-! ## Places -/

/-- Where a walk has come to. -/
inductive Place where
  /-- Below the root, by these names from the last to the first. -/
  | inside (names : List Text)
  /-- Out of the disk. -/
  | outside
  deriving DecidableEq, Repr

/-- The directory above a place. -/
def Place.above : Place → Place
  | inside (_ :: names) => inside names
  | _ => outside

/-- The place by a name below this one. -/
def Place.child (name : Text) : Place → Place
  | inside names => inside (name :: names)
  | outside => outside

/-- Why a walk did not arrive. -/
inductive WalkFault where
  /-- A name is not there. -/
  | missing
  /-- Something else went wrong. -/
  | broken (cause : FaultCause)
  deriving DecidableEq, Repr

/-- Whether a path leads from the same directory wherever it is used. -/
def Path.isAbsolute (path : Text) : Bool :=
  path.head? = some '/'

/-- Where a path starts that is used in a directory: there, unless the path is absolute. -/
def Place.origin (place : Place) (path : Text) : Place :=
  if Path.isAbsolute path then .outside else place

/-! ## Disk -/

/-- A directory on disk, and the project in it. -/
structure Disk where
  /-- The directory itself. -/
  root : Node
  /-- The path of the project's directory from there. -/
  home : Text := Path.here

namespace Disk

/-- The disk without any files. -/
def empty : Disk := { root := .empty }

/-- The node at a place. -/
def node? (d : Disk) : Place → Option Node
  | .inside names => d.root.at? names.reverse
  | .outside => some .empty

/-! ## Walking -/

/-- The number of bytes that a name may have. -/
def maxNameLength : Nat := 255

/-- The number of bytes that a whole path may have. -/
def maxPathLength : Nat := 4095

/-- The number of links that may be followed on one walk. -/
def maxLinks : Nat := 40

/-- Where the names lead from a place, at which a node is. The last of them need not be there if
`fresh` is set. `follow` goes on behind a link: it is given the place to go on from, and the names
of the link's target before those that are left. -/
def walkWith (d : Disk) (fresh : Bool) (follow : Place → List Text → Except WalkFault Place) :
    Place → Option Node → List Text → Except WalkFault Place
  | place, _, [] => .ok place
  | place, some (.folder children), name :: names =>
    if name = [] ∨ name = Path.here then
      walkWith d fresh follow place (some (.folder children)) names
    else if name = Path.up then
      walkWith d fresh follow place.above (d.node? place.above) names
    else if maxNameLength < Text.byteLength name then .error (.broken .nameTooLong)
    else match children.lookup name with
      | none => if fresh && names.isEmpty then .ok (place.child name) else .error .missing
      | some (.link target) => follow (place.origin target) (Text.split '/' target ++ names)
      | some n => walkWith d fresh follow (place.child name) (some n) names
  | _, _, _ :: _ => .error (.broken .notDirectory)

/-- Where the names lead from a place, with so many links followed at most. -/
def walk (d : Disk) (fresh : Bool) (links : Nat) (place : Place) (names : List Text) :
    Except WalkFault Place :=
  match links with
  | 0 => d.walkWith fresh (fun _ _ => .error (.broken .linkLoop)) place (d.node? place) names
  | links + 1 => d.walkWith fresh (d.walk fresh links) place (d.node? place) names

/-- Where a path leads to, taken as it is written and followed by more names. The last name need
not be there if `fresh` is set. -/
def placeAt (d : Disk) (fresh : Bool) (path : Text) (names : List Text) :
    Except WalkFault Place :=
  let all := Text.split '/' path ++ names
  if all.any (fun name => name.contains '\x00') then .error (.broken .nulInName)
  else if maxPathLength < Text.byteLength (Path.ofSegments all) then
    .error (.broken .nameTooLong)
  else d.walk fresh maxLinks ((Place.inside []).origin path) all

/-- The node that a path leads to, taken as it is written and followed by more names. -/
def locate (d : Disk) (path : Text) (names : List Text) : Except WalkFault Node := do
  match d.node? (← d.placeAt false path names) with
  | some n => return n
  | none => throw .missing

/-- The node that the names lead to from the project's directory. -/
def find (d : Disk) (names : List Text) : Except WalkFault Node :=
  d.locate d.home names

/-! ## Confinement -/

/-- One segment is put on the stack of those before it, whose top comes first, unless it climbs
above the root. -/
def pushConfined (stack : List Text) (segment : Text) : Option (List Text) :=
  if segment = [] ∨ segment = Path.here then some stack
  else if segment = Path.up then
    match stack with
    | [] => none
    | _ :: rest => some rest
  else some (segment :: stack)

/-- The names that a path leads by from the root, unless it leads out of the project. -/
def confine? (path : Text) : Option (List Text) :=
  if Path.isRooted path then none
  else ((Text.splitWhere Path.isSeparator path).foldlM pushConfined []).map List.reverse

/-- The node at a path. -/
def resolve (d : Disk) (path : Text) : Except StoreFault Node :=
  match confine? path with
  | none => .error (.outsideRoot path)
  | some names =>
    match d.find names with
    | .ok n => .ok n
    | .error .missing => .error (.notFound path)
    | .error (.broken cause) => .error (.failed path cause)

/-! ## Answers -/

/-- The content of the file at a path. -/
def read (d : Disk) (path : Text) : Except StoreFault Text := do
  match ← d.resolve path with
  | .file (some content) => return content
  | .file none => throw (.failed path .notText)
  | _ => throw (.failed path .isDirectory)

/-- Whether the names lead to a directory from the project's, links followed. -/
def isFolder (d : Disk) (names : List Text) : Bool :=
  match d.find names with
  | .ok (.folder _) => true
  | _ => false

/-- The entries of the directory at a path; a link counts as what it leads to. -/
def list (d : Disk) (path : Text) : Except StoreFault (List Entry) := do
  match ← d.resolve path with
  | .folder children =>
    let names := (confine? path).getD []
    return listing (children.map (fun c => ⟨c.1, d.isFolder (names ++ [c.1])⟩))
  | _ => throw (.failed path .notDirectory)

/-- Whether a file or directory is at a path. -/
def present (d : Disk) (path : Text) : Bool :=
  (d.resolve path).isOk

/-- Whether a file is at a path. -/
def isFile (d : Disk) (path : Text) : Bool :=
  match d.resolve path with
  | .ok (.file _) => true
  | _ => false

/-- The disk as a store. -/
def store (d : Disk) : Store :=
  ⟨d.read, d.list, d.present, d.isFile⟩

/-! ## Paths as they are written -/

/-- Whether a path, taken as it is written, leads to a directory. -/
def isFolderAt (d : Disk) (path : Text) : Bool :=
  match d.locate path [] with
  | .ok (.folder _) => true
  | _ => false

/-- The content of the file that a path, taken as it is written, leads to. -/
def contentAt? (d : Disk) (path : Text) : Option Text :=
  match d.locate path [] with
  | .ok (.file content) => content
  | _ => none

end Disk

end SourceClosure
