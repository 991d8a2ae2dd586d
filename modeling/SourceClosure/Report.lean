import SourceClosure.Json.Printer
import SourceClosure.Session.State

/-!
# Reports

A report says what a session fed to its engine: the document that the configuration comes from,
the compiler options, and every file of the corpus with its size and whether it was opened as a
model. It is written as plain text, one line a file, or as JSON.
-/

namespace SourceClosure

/-- A file of a report. -/
structure ReportedFile where
  path : Text
  /-- The size in bytes. -/
  size : Nat
  /-- Whether the file was opened as a model. -/
  isModel : Bool
  deriving DecidableEq, Repr

/-- What a session fed to its engine. -/
structure Report where
  /-- The document that the configuration comes from, unless all options have their defaults. -/
  document : Option Text
  options : CompilerOptions
  /-- The files in the order of their registration. -/
  files : List ReportedFile
  deriving DecidableEq, Repr

/-- The document that a configuration comes from. -/
def ConfigSource.document? : ConfigSource → Option Text
  | document path => some path
  | builtIn => none

namespace Report

/-- The report on a session. -/
def ofSession (s : Session) : Report where
  document := s.config.source.document?
  options := s.config.options
  files := s.corpus.map (fun f =>
    ⟨f.path, Text.byteLength f.content,
      s.engine.models.any (fun m => m.uri = Path.toUri f.path)⟩)

/-! ## As plain text -/

/-- The number of columns of a size. -/
def sizeWidth : Nat := 8

/-- A number in decimal digits, at the right end of so many columns. -/
def aligned (width n : Nat) : Text :=
  let digits := Json.Numeral.digits n
  List.replicate (width - digits.length) ' ' ++ digits

/-- The line of a file: models are marked by a star. -/
def line (f : ReportedFile) : Text :=
  (if f.isModel then '*' else ' ') :: ' ' :: aligned sizeWidth f.size ++ ' ' :: ' ' :: f.path

/-- The lines of the report. -/
def lines (r : Report) : List Text :=
  ("config: ".toList ++ r.document.getD "(defaults)".toList)
    :: r.files.map line
    ++ [Json.Numeral.digits r.files.length ++ " files".toList]

/-- The report as plain text. -/
def plain (r : Report) : Text :=
  r.lines.flatMap (· ++ ['\n'])

/-! ## As JSON -/

/-- A file as an object. -/
def fileValue (f : ReportedFile) : Json.Value :=
  .object
    [("path".toList, .string f.path), ("bytes".toList, .ofNat f.size),
      ("model".toList, .bool f.isModel)]

/-- The report as an object. -/
def toValue (r : Report) : Json.Value :=
  .object
    [("config".toList, (r.document.map .string).getD .null),
      ("compilerOptions".toList, r.options.toValue),
      ("files".toList, .list (r.files.map fileValue))]

/-- The report as JSON over several lines. -/
def json (r : Report) : Text :=
  r.toValue.pretty ++ ['\n']

end Report

end SourceClosure
