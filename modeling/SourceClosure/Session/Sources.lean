import SourceClosure.Path.Candidates
import SourceClosure.Session.State

/-!
# Loading sources

Loading a source registers the file that a stem stands for, and then whatever its specifiers
lead to, file by file. What is in the corpus is not loaded again, so cycles end, and a bound on
the number of files in a chain of imports cuts long chains. Specifiers of packages are only
remembered: their declarations are loaded in bulk later.
-/

namespace SourceClosure

namespace Session

/-! ## Probing -/

/-- The first of the candidates that is a file. -/
def probeEach (p : Project) : List Text → Session → Option Text × Session
  | [], s => (none, s)
  | c :: candidates, s =>
    if p.files.isFile c then (some c, s.note (.isFile c))
    else probeEach p candidates (s.note (.isFile c))

/-- The file that a stem stands for. -/
def probe (p : Project) (stem : Text) (s : Session) : Option Text × Session :=
  probeEach p (Path.candidates stem) s

/-! ## Following specifiers -/

/-- Whether specifiers are looked for in the file: JSON documents have none. -/
def isScannable (path : Text) : Bool :=
  (Suffix.ofPath? path).any (· != .json)

/-- The session with one more package that sources mention, unless it is known already. -/
def discover (package : Text) (s : Session) : Session :=
  if package = [] ∨ s.isLoaded package ∨ s.discovered.contains package then s
  else { s with discovered := s.discovered ++ [package] }

/-- The stems that an aliased specifier may stand for, best first. -/
def aliasStems (aliases : AliasResolver) (specifier : Text) : List Text :=
  (aliases.candidates? specifier).getD
    [Path.toProject (Text.trimStart (· == '/') specifier)]

/-- Loads the first of the stems that leads anywhere. -/
def loadFirst (load : Text → Session → LoadOutcome × Session) :
    List Text → Session → Session
  | [], s => s
  | stem :: stems, s =>
    let result := load stem s
    if result.1 = .notFound then loadFirst load stems result.2 else result.2

/-- Follows a specifier of a file in a directory. -/
def follow (load : Text → Session → LoadOutcome × Session) (directory : Text) (s : Session)
    (specifier : Text) : Session :=
  match Specifier.kind s.aliases specifier with
  | .relative => (load (Path.join directory specifier) s).2
  | .aliased => loadFirst load (aliasStems s.aliases specifier) s
  | .external => discover (Specifier.packageName specifier) s

/-! ## Loading -/

/-- Registers a file that was read, and follows its specifiers. -/
def feed (p : Project) (load : Text → Session → LoadOutcome × Session)
    (path content : Text) (s : Session) : Session :=
  let s := (s.register p path content).2
  if isScannable path then
    (p.specifiersIn content).foldl (follow load (Path.directory path)) s
  else s

/-- Loads the file that a stem stands for and what it leads to, in chains of at most `room`
files. -/
def loadWithin (p : Project) : (room : Nat) → Text → Session → LoadOutcome × Session
  | 0, _, s => (.skipped .depthExceeded, s)
  | room + 1, stem, s =>
    if s.has stem then (.alreadyLoaded, s)
    else
      let probed := probe p stem s
      match probed.1 with
      | none => (.notFound, probed.2)
      | some path =>
        if probed.2.has path then (.alreadyLoaded, probed.2)
        else
          let s := probed.2.note (.read path)
          match p.files.read path with
          | .error _ => (.notFound, s)
          | .ok content => (.loaded path, feed p (loadWithin p room) path content s)

/-- Loads the file that a path stands for and what it leads to, `depth` files down a chain. -/
def loadSource (p : Project) (path : Text) (depth : Nat) (s : Session) :
    LoadOutcome × Session :=
  loadWithin p (p.settings.maxSourceDepth - depth) (Path.toProject path) s

end Session

end SourceClosure
