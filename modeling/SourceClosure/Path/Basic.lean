import SourceClosure.Text.Basic

/-!
# Paths

A path is a text of segments separated by slashes. A project path is relative to the project's
root, and the empty text is the root itself. Nothing here looks at a file system: `normalize`
is a left-to-right pass over the segments that drops empty ones and `.`, and lets `..` take
back the segment before it. A `..` with nothing to take back is discarded, so a normalised
path never climbs above its starting point.
-/

namespace SourceClosure

namespace Path

/-! ## Segments -/

/-- The path with every backslash turned into a slash. -/
def slashes (p : Text) : Text :=
  p.map (fun c => if c = '\\' then '/' else c)

/-- The segment that stands for the directory it occurs in. -/
def here : Text := ['.']

/-- The segment that stands for the directory above. -/
def up : Text := ['.', '.']

/-- One segment is put on the stack of those before it, whose top comes first. -/
def pushSegment (stack : List Text) (segment : Text) : List Text :=
  if segment = [] ∨ segment = here then stack
  else if segment = up then stack.tail
  else segment :: stack

/-- The segments that are left of a path once `.` and `..` have been worked off. -/
def segments (p : Text) : List Text :=
  ((Text.split '/' (slashes p)).foldl pushSegment []).reverse

/-- Segments written as a path. -/
def ofSegments (parts : List Text) : Text :=
  List.intercalate ['/'] parts

/-! ## Normal form -/

/-- The normal form of a path; a leading slash is kept. -/
def normalize (p : Text) : Text :=
  if (slashes p).head? = some '/' then '/' :: ofSegments (segments p)
  else ofSegments (segments p)

/-- The project path that a path denotes: its normal form without a leading slash. -/
def toProject (p : Text) : Text :=
  Text.trimStart (· == '/') (normalize p)

/-! ## Joining -/

/-- Whether the character separates segments, in either spelling. -/
def isSeparator (c : Char) : Bool :=
  c == '/' || c == '\\'

/-- Whether the path is absolute: it starts with a separator, or with a drive letter, a colon
and a separator. -/
def isRooted : Text → Bool
  | drive :: ':' :: c :: _ => isSeparator drive || (drive.isAlpha && isSeparator c)
  | c :: _ => isSeparator c
  | [] => false

/-- The path `relative` appended to `base` as it is; an absolute one replaces `base`. -/
def combine (base relative : Text) : Text :=
  if base = [] ∨ isRooted relative then relative
  else if base.getLast? = some '/' then base ++ relative
  else base ++ '/' :: relative

/-- The path `relative` joined onto `base`, in normal form. -/
def join (base relative : Text) : Text :=
  normalize (combine base relative)

/-! ## Parts -/

/-- The directory part with its trailing slash; empty for a bare file name. -/
def directory (p : Text) : Text :=
  Text.throughLast '/' (slashes p)

/-- The path without any leading `./`; a lone `.` becomes empty. -/
def stripHere : Text → Text
  | '.' :: '/' :: rest => stripHere rest
  | ['.'] => []
  | p => p

/-- The URI under which a project path is shown to the engine. -/
def toUri (p : Text) : Text :=
  "file:///".toList ++ Text.trimStart (· == '/') p

end Path

end SourceClosure
