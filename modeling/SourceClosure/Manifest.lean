import SourceClosure.Text.Blank
import SourceClosure.Json.Value

/-!
# Package manifests

A package's manifest may say where the declarations of the package start, in its field `types`
or, failing that, `typings`. Fields of another kind count as absent.
-/

namespace SourceClosure

/-- What is read of a package's manifest. -/
structure Manifest where
  types : Option Text
  typings : Option Text
  deriving DecidableEq, Repr

namespace Manifest

/-- The name of the file that holds a package's manifest. -/
def fileName : Text := "package.json".toList

/-- The manifest that a text holds, if it is a JSON object. -/
def parse? (t : Text) : Option Manifest :=
  match Json.parse t with
  | .ok (.object members) =>
    let field (name : String) : Option Text :=
      ((Json.Value.object members).member? name.toList).bind Json.Value.string?
    some ⟨field "types", field "typings"⟩
  | _ => none

/-- The file that the manifest names for the package's declarations; blank names do not count. -/
def typesEntry? (m : Manifest) : Option Text :=
  (m.types.toList ++ m.typings.toList).find? (fun entry => !(Text.strip entry).isEmpty)

end Manifest

end SourceClosure
