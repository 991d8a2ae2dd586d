import SourceClosure.Jsonc
import SourceClosure.Options.Raw

/-!
# Configuration documents

A configuration document is relaxed JSON that holds compiler options and names the documents
it extends. `Document.parse` reads one.
-/

namespace SourceClosure

/-- What a configuration document says. -/
structure Document where
  /-- The compiler options, if there are any. -/
  options : Option RawOptions := none
  /-- The documents that this one extends; later ones take precedence. -/
  bases : Option Json.OneOrMany := none
  deriving DecidableEq, Repr

namespace Document

/-- The fields in the order of their declaration; values may have at most `room` levels of
brackets. -/
def fields (room : Nat) : List (Json.Field Document) :=
  [.of "compilerOptions" (Json.readOptional (RawOptions.read room))
      (fun d v => { d with options := v }),
    .of "extends" (Json.readOptional (Json.readOneOrMany room))
      (fun d v => { d with bases := v })]

/-- A document. -/
def read : Json.Reader Document :=
  Json.readRecord (fields (Json.maxNesting - 1)) false {}

/-- The document that a text holds once comments and trailing commas are removed. -/
def parse (t : Text) : Except Json.Fault Document :=
  Json.readAll read (Jsonc.toStrict t)

/-- The compiler options, all of them unset if the document has none. -/
def rawOptions (d : Document) : RawOptions :=
  d.options.getD {}

/-- The documents that this one extends, in order. -/
def extended (d : Document) : List Text :=
  (d.bases.map Json.OneOrMany.toList).getD []

end Document

end SourceClosure
