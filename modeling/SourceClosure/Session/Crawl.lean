import SourceClosure.Session.State

/-!
# Searching directories for declarations

A crawl registers the declaration files below a directory. Hidden entries, directories on the
denylist, directories that are too deep and files that are too large are passed over. A listing
or a read that fails loses nothing but what it was for.
-/

namespace SourceClosure

namespace CrawlReport

/-- The report with one more path passed over. -/
def skip (r : CrawlReport) (path : Text) (reason : Skip) : CrawlReport :=
  { r with skipped := r.skipped ++ [(path, reason)] }

/-- The report with one more failure. -/
def fail (r : CrawlReport) : CrawlReport :=
  { r with failed := r.failed + 1 }

/-- The report with one more file registered, if there was one. -/
def count (r : CrawlReport) (registered : Bool) : CrawlReport :=
  if registered then { r with registered := r.registered + 1 } else r

end CrawlReport

namespace Session

/-- A crawl under way: the report so far and the session. -/
abbrev Crawl := CrawlReport × Session

/-- Takes up a declaration file. -/
def crawlFile (p : Project) (path : Text) (c : Crawl) : Crawl :=
  let s := c.2.note (.read path)
  match p.files.read path with
  | .error _ => (c.1.fail, s)
  | .ok content =>
    let size := Text.byteLength content
    if p.settings.maxDeclarationSize ≤ size then (c.1.skip path (.tooLarge size), s)
    else
      let registered := s.register p path content
      (c.1.count registered.1, registered.2)

/-- Takes up an entry of a directory. `enter` searches a directory below, unless that would be
too deep. -/
def crawlEntry (p : Project) (enter : Option (Text → Crawl → Crawl)) (directory : Text)
    (c : Crawl) (e : Entry) : Crawl :=
  let path := Path.join directory e.name
  if e.name.head? = some '.' then (c.1.skip path .hidden, c.2)
  else if e.isFolder then
    if p.settings.isDenied e.name then (c.1.skip path .denylisted, c.2)
    else match enter with
      | none => (c.1.skip path .depthExceeded, c.2)
      | some enter => enter path c
  else if Path.isDeclaration e.name then crawlFile p path c
  else c

/-- Searches a directory. -/
def crawlFolder (p : Project) (enter : Option (Text → Crawl → Crawl)) (directory : Text)
    (c : Crawl) : Crawl :=
  let s := c.2.note (.list directory)
  match p.files.list directory with
  | .error _ => (c.1.fail, s)
  | .ok entries => entries.foldl (crawlEntry p enter directory) (c.1, s)

/-- Searches a directory and those at most `depth` levels below it. -/
def crawlWithin (p : Project) : (depth : Nat) → Text → Crawl → Crawl
  | 0 => crawlFolder p none
  | depth + 1 => crawlFolder p (some (crawlWithin p depth))

/-- Searches the directory at a path and those at most `depth` levels below it. -/
def crawl (p : Project) (path : Text) (depth : Nat) (s : Session) : CrawlReport × Session :=
  crawlWithin p depth (Path.toProject path) ({}, s)

end Session

end SourceClosure
