import SourceClosure.Store.Basic

/-!
# Recorded answers

A record holds the answers that a store gave, by the questions that were put to it. As a store
it repeats them, and knows of nothing else. A session that runs on a record and puts no question
beyond it runs as it would on the store itself.
-/

namespace SourceClosure

/-- The answers that a store gave, by their paths. -/
structure Record where
  contents : List (Text × Except StoreFault Text) := []
  listings : List (Text × Except StoreFault (List Entry)) := []
  presences : List (Text × Bool) := []
  fileKinds : List (Text × Bool) := []

namespace Record

/-- Whether a question was answered. -/
def knows (r : Record) : Access → Bool
  | .read path => (r.contents.lookup path).isSome
  | .list path => (r.listings.lookup path).isSome
  | .present path => (r.presences.lookup path).isSome
  | .isFile path => (r.fileKinds.lookup path).isSome

/-- The record as a store. -/
def store (r : Record) : Store where
  read path := (r.contents.lookup path).getD (.error (.notFound path))
  list path := (r.listings.lookup path).getD (.error (.notFound path))
  present path := (r.presences.lookup path).getD false
  isFile path := (r.fileKinds.lookup path).getD false

/-! ## More answers -/

/-- What a store answers that has found something at a path, or nothing. -/
def answer {α : Type} (path : Text) : Option α → Except StoreFault α
  | some found => .ok found
  | none => .error (.notFound path)

/-- The record with the content of a file, if there is one. -/
def putContent (r : Record) (path : Text) (content : Option Text) : Record :=
  { r with contents := (path, answer path content) :: r.contents }

/-- The record with the listing of a directory, if there is one. -/
def putListing (r : Record) (path : Text) (entries : Option (List Entry)) : Record :=
  { r with listings := (path, answer path entries) :: r.listings }

/-- The record with whether something is at a path. -/
def putPresence (r : Record) (path : Text) (present : Bool) : Record :=
  { r with presences := (path, present) :: r.presences }

/-- The record with whether a file is at a path. -/
def putFileKind (r : Record) (path : Text) (isFile : Bool) : Record :=
  { r with fileKinds := (path, isFile) :: r.fileKinds }

/-- The questions of a session that the record does not answer, the last first. -/
def unknown (r : Record) (accesses : List Access) : List Access :=
  accesses.filter (fun a => !r.knows a)

end Record

end SourceClosure
