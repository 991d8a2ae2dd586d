import SourceClosure.Alias.Resolver

/-!
# Specifiers

A specifier is the text by which an import names a module. It is relative to the importing
file, or stands for stems in the project by an alias or a leading slash, or else belongs to a
package. The declarations of a package may be found in a stub directory, whose name puts a
scope and a name together with two low lines.
-/

namespace SourceClosure

/-- How a specifier is resolved. -/
inductive SpecifierKind where
  /-- Joined onto the directory of the importing file. -/
  | relative
  /-- Resolved through the alias table, or against the project's root. -/
  | aliased
  /-- Belongs to a package. -/
  | external
  deriving DecidableEq, Repr

namespace Specifier

/-! ## Kinds -/

/-- Whether the specifier is relative to the importing file. -/
def isRelative (s : Text) : Bool :=
  s == Path.here || s == Path.up || "./".toList.isPrefixOf s || "../".toList.isPrefixOf s

/-- How the specifier is resolved; a relative one never through the alias table. -/
def kind (aliases : AliasResolver) (s : Text) : SpecifierKind :=
  if isRelative s then .relative
  else if s.head? = some '/' ∨ aliases.covers s then .aliased
  else .external

/-! ## Packages -/

/-- The name of the package and the path inside it. The name of a scoped package has two
segments. -/
def splitName (s : Text) : Text × Text :=
  match Text.splitOnce '/' s with
  | none => (s, [])
  | some (first, rest) =>
    if s.head? = some '@' then
      match Text.splitOnce '/' rest with
      | none => (s, [])
      | some (second, rest) => (first ++ '/' :: second, rest)
    else (first, rest)

/-- The package that the specifier belongs to. The modules of the runtime all belong to one. -/
def packageName (s : Text) : Text :=
  if "node:".toList.isPrefixOf s then "node".toList else (splitName s).1

/-- What stands between the scope and the name in a stub directory's name. -/
def stubSeparator : Text := "__".toList

/-- The name of the stub directory of a package. -/
def stubName (package : Text) : Text :=
  match package with
  | '@' :: rest =>
    match Text.splitOnce '/' rest with
    | some (scope, name) => scope ++ stubSeparator ++ name
    | none => package
  | _ => package

/-- The package that a stub directory is for. -/
def packageOfStub (stub : Text) : Text :=
  match Text.splitOnceAt stubSeparator stub with
  | some (scope, name) =>
    if scope = [] ∨ name = [] then stub else '@' :: scope ++ '/' :: name
  | none => stub

end Specifier

end SourceClosure
