import SourceClosure.Config
import SourceClosure.Path.Suffix
import SourceClosure.Session.Outcome
import SourceClosure.Settings

/-!
# Sessions

A session feeds an engine with the files that a project's active sources need. It remembers
the files fed so far, its corpus, and never feeds a path twice; the corpus is also what tells
later searches where they have been. Files are registered under their project path. Scripts of
the project itself, as opposed to those of its packages, are opened as models as well.
-/

namespace SourceClosure

/-! ## Project -/

/-- What a session works on: a project's files, the way specifiers are found in source text, and
the settings. -/
structure Project where
  files : Store
  specifiersIn : Text → List Text
  settings : Settings

namespace Project

/-- The directory of the packages, without trailing slashes. -/
def packageFolder (p : Project) : Text :=
  Text.trimEnd (· == '/') p.settings.packageRoot

/-- Whether the path is the directory of the packages or below it. -/
def inPackages (p : Project) (path : Text) : Bool :=
  path == p.packageFolder || (p.packageFolder ++ ['/']).isPrefixOf path

/-- Whether a file at the path is opened as a model. -/
def isLive (p : Project) (path : Text) : Bool :=
  Path.isScript path && !p.inPackages path

end Project

/-! ## Engine -/

/-- A file that was fed to the engine, by its URI. -/
structure Source where
  uri : Text
  content : Text
  deriving DecidableEq, Repr

/-- A call of an engine. -/
inductive EngineCall where
  | configure (options : CompilerOptions)
  | addSource (source : Source)
  | openModel (source : Source)
  deriving DecidableEq, Repr

/-- Everything that an engine was given, in order. -/
structure Engine where
  /-- The compiler options given last. -/
  options : Option CompilerOptions := none
  /-- How often compiler options were given. -/
  updates : Nat := 0
  sources : List Source := []
  models : List Source := []
  /-- All of the calls, in the order in which they were made. -/
  calls : List EngineCall := []
  deriving DecidableEq, Repr

namespace Engine

/-- The engine with compiler options. -/
def configure (e : Engine) (o : CompilerOptions) : Engine :=
  { e with options := some o, updates := e.updates + 1, calls := e.calls ++ [.configure o] }

/-- The engine with one more source. -/
def addSource (e : Engine) (f : Source) : Engine :=
  { e with sources := e.sources ++ [f], calls := e.calls ++ [.addSource f] }

/-- The engine with one more model. -/
def openModel (e : Engine) (f : Source) : Engine :=
  { e with models := e.models ++ [f], calls := e.calls ++ [.openModel f] }

end Engine

/-! ## State -/

/-- How far a session has come. -/
inductive Phase where
  | uninitialized
  | configured
  | ready
  deriving DecidableEq, Repr

/-- The place of a phase in the order in which they follow each other. -/
def Phase.rank : Phase → Nat
  | uninitialized => 0
  | configured => 1
  | ready => 2

/-- A file of the corpus, with its content when it was registered. -/
structure CorpusFile where
  path : Text
  content : Text
  deriving DecidableEq, Repr

/-- The state of a session. -/
structure Session where
  phase : Phase := .uninitialized
  config : Config := .default
  engine : Engine := {}
  /-- The files fed so far, in order. -/
  corpus : List CorpusFile := []
  /-- The packages that were asked for, the last first. -/
  loaded : List Text := []
  /-- The packages that sources mention and that were not asked for yet, in order. -/
  discovered : List Text := []
  /-- The questions put to the project's store, the last first. -/
  accesses : List Access := []
  deriving DecidableEq, Repr

namespace Session

/-- A session that has done nothing yet. -/
def new : Session := {}

/-! ## Views -/

/-- The corpus file under a path. -/
def file? (s : Session) (path : Text) : Option CorpusFile :=
  s.corpus.find? (fun f => f.path = path)

/-- Whether the path is in the corpus. -/
def has (s : Session) (path : Text) : Bool :=
  s.corpus.any (fun f => f.path = path)

/-- Whether the package was asked for. -/
def isLoaded (s : Session) (package : Text) : Bool :=
  s.loaded.contains package

/-- The aliases in force. -/
def aliases (s : Session) : AliasResolver :=
  s.config.aliases

/-- The paths of the files that were to be read, in order and in normal form. -/
def reads (s : Session) : List Text :=
  Access.reads s.accesses

/-! ## Elementary steps -/

/-- The session with one more question put to the store. -/
def note (s : Session) (a : Access) : Session :=
  { s with accesses := a :: s.accesses }

/-- The session in a phase, unless it has come further already. -/
def advance (s : Session) (phase : Phase) : Session :=
  if s.phase.rank < phase.rank then { s with phase } else s

/-- The session after feeding a file to the engine, unless its path was fed before; and whether
it was fed now. -/
def register (p : Project) (path content : Text) (s : Session) : Bool × Session :=
  let path := Path.toProject path
  if s.has path then (false, s)
  else
    let source : Source := ⟨Path.toUri path, content⟩
    let engine := s.engine.addSource source
    (true,
      { s with
        engine := if p.isLive path then engine.openModel source else engine
        corpus := s.corpus ++ [⟨path, content⟩] })

end Session

end SourceClosure
