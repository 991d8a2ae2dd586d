import SourceClosure.Session.Packages
import SourceClosure.Session.Sources

/-!
# Operations of a session

The operations that can be asked of a session, as data, with their answers. A run is a list of
operations one after the other.
-/

namespace SourceClosure

namespace Session

/-! ## Lifecycle -/

/-- Loads the project's configuration and hands it to the engine, once in a session. -/
def configure (p : Project) (s : Session) : Session :=
  if s.phase = .uninitialized then
    let loaded := Config.load p.files p.settings.packageRoot
    let s : Session :=
      { s with
        config := loaded.1
        engine := s.engine.configure loaded.1.options
        accesses := loaded.2 ++ s.accesses }
    s.advance .configured
  else s

/-- Brings the session up: the configuration, the packages that are loaded in advance, the entry
file with what it leads to, and the packages mentioned there. -/
def start (p : Project) (entry : Text) (s : Session) : LoadOutcome × Session :=
  let preloaded := preload p (configure p s)
  let loaded := loadSource p entry 0 preloaded.2
  let finished := loadDiscovered p loaded.2
  (loaded.1, finished.2.advance .ready)

/-- Loads what a file that became active leads to. -/
def activate (p : Project) (path : Text) (s : Session) : LoadOutcome × Session :=
  loadSource p path 0 (configure p s)

end Session

/-! ## Operations -/

/-- An operation of a session. -/
inductive Operation where
  | configure
  | start (entry : Text)
  | activate (path : Text)
  | loadSource (path : Text) (depth : Nat)
  | probe (stem : Text)
  | loadPackage (name : Text)
  | preload
  | loadDiscovered
  | crawl (path : Text) (depth : Nat)
  | register (path content : Text)
  deriving DecidableEq, Repr

/-- The answer to an operation. -/
inductive Answer where
  | done
  | load (outcome : LoadOutcome)
  | probed (path : Option Text)
  | package (outcome : PackageOutcome)
  | count (registered : Nat)
  | crawled (report : CrawlReport)
  | registered (now : Bool)
  deriving DecidableEq, Repr

namespace Session

/-- The answer to an operation, and the session after it. -/
def perform (p : Project) (s : Session) : Operation → Answer × Session
  | .configure => (.done, configure p s)
  | .start entry => (start p entry s).map .load id
  | .activate path => (activate p path s).map .load id
  | .loadSource path depth => (loadSource p path depth s).map .load id
  | .probe stem => (probe p stem s).map .probed id
  | .loadPackage name => (loadPackage p name s).map .package id
  | .preload => (preload p s).map .count id
  | .loadDiscovered => (loadDiscovered p s).map .count id
  | .crawl path depth => (crawl p path depth s).map .crawled id
  | .register path content => (register p path content s).map .registered id

/-- The session after a list of operations. -/
def run (p : Project) (s : Session) (operations : List Operation) : Session :=
  operations.foldl (fun s operation => (perform p s operation).2) s

/-! ## Growth -/

/-- What a session gained between two states, the second of which came of the first. -/
structure Growth where
  files : List CorpusFile
  sources : List Source
  models : List Source
  reads : List Text

/-- What a session gained since an earlier state. -/
def growth (s earlier : Session) : Growth where
  files := s.corpus.drop earlier.corpus.length
  sources := s.engine.sources.drop earlier.engine.sources.length
  models := s.engine.models.drop earlier.engine.models.length
  reads := s.reads.drop earlier.reads.length

end Session

end SourceClosure
