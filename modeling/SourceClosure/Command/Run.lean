import SourceClosure.Command.Arguments
import SourceClosure.Report
import SourceClosure.Session.Operation
import SourceClosure.Specifier.Scan
import SourceClosure.Store.Disk

/-!
# The command

The command starts a session from the first file, activates the others one after the other,
loads the packages that are left, and prints the report. It fails if the command line is
refused, if the project is no directory, or if the settings cannot be read; what goes wrong
afterwards only shortens the report.
-/

namespace SourceClosure

namespace Command

/-! ## Failures -/

/-- Why the command printed no report. -/
inductive Failure where
  | misuse (m : Misuse)
  /-- The project is no directory. -/
  | noProject (path : Text)
  | unreadableSettings (path : Text)
  | malformedSettings (path : Text)
  deriving DecidableEq, Repr

namespace Failure

/-- The exit code of the command. -/
def exitCode : Failure → Nat
  | misuse _ => 2
  | noProject _ | unreadableSettings _ | malformedSettings _ => 1

/-- The wording of a failure. -/
def message : Failure → Text
  | misuse m => m.message
  | noProject path => "project root ".toList ++ path ++ " is not a directory".toList
  | unreadableSettings path => "reading ".toList ++ path
  | malformedSettings path => "parsing ".toList ++ path

end Failure

/-! ## Fixed texts -/

/-- The name of the command. -/
def name : Text := "typefeed".toList

/-- The version of the command. -/
def version : Text := "0.1.0".toList

/-- The line that tells the version. -/
def versionText : Text :=
  name ++ ' ' :: version ++ ['\n']

/-- The explanation of the command line. -/
def helpText : Text :=
  "Usage: ".toList ++ name ++ " [OPTIONS] <ENTRY> [ACTIVATE]...\n\nOptions:\n".toList
    ++ Flag.all.flatMap (fun f =>
      "  ".toList ++ f.usage ++ "  ".toList ++ f.explanation.toList ++ ['\n'])

/-! ## Settings -/

/-- The settings with those that the command line overrides. -/
def override (a : Arguments) (s : Settings) : Settings :=
  { s with
    maxSourceDepth := a.maxDepth.getD s.maxSourceDepth
    maxDeclarationSize := a.maxDeclarationSize.getD s.maxDeclarationSize
    priorityPackages := if a.has .noPriorityPackages then [] else s.priorityPackages }

/-- The settings by the command line and the file that it names, where `content?` finds the content
of a file. -/
def settings (content? : Text → Option Text) (a : Arguments) : Except Failure Settings :=
  match a.settings with
  | none => .ok (override a {})
  | some path =>
    match content? path with
    | none => .error (.unreadableSettings path)
    | some content =>
      match Settings.parse content with
      | .error _ => .error (.malformedSettings path)
      | .ok s => .ok (override a s)

/-- The settings to run with, if the project is a directory, which `isFolder` tells. -/
def prepare (isFolder : Text → Bool) (content? : Text → Option Text) (a : Arguments) :
    Except Failure Settings :=
  if isFolder a.project then settings content? a else .error (.noProject a.project)

/-! ## The run -/

/-- The operations of the session for a list of files. -/
def operations : List Text → List Operation
  | [] => []
  | entry :: others => .start entry :: others.map .activate ++ [.loadDiscovered]

/-- The session for the files of the command line. -/
def session (files : Store) (s : Settings) (a : Arguments) : Session :=
  Session.new.run ⟨files, Specifier.extract, s⟩ (operations a.files)

/-- The report on a session, in the form that the command line asks for. -/
def reportText (a : Arguments) (s : Session) : Text :=
  let report := Report.ofSession s
  if a.has .json then report.json else report.plain

/-- What the command prints for arguments, in a directory on disk. -/
def report (d : Disk) (a : Arguments) : Except Failure Text := do
  let s ← prepare d.isFolderAt d.contentAt? a
  return reportText a (session { d with home := a.project }.store s a)

/-- What the command prints where the reading of the command line ended early. -/
def stopped : Stop → Except Failure Text
  | .version => .ok versionText
  | .help => .ok helpText
  | .misuse m => .error (.misuse m)

/-- What the command prints for a command line, in a directory on disk. -/
def run (d : Disk) (words : List Text) : Except Failure Text :=
  match Arguments.parse words with
  | .ok a => report d a
  | .error stop => stopped stop

end Command

end SourceClosure
