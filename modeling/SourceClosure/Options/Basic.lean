import SourceClosure.Options.Kinds
import SourceClosure.Options.Raw

/-!
# Compiler options

`CompilerOptions` is what the engine is given: every option has a value. An option that the
documents leave unset, or set to a name that is not known, takes its default.
-/

namespace SourceClosure

/-- Where type declarations are looked for when no document names a directory. -/
def defaultTypeRoot : Text := "node_modules/@types".toList

/-- Compiler options with a value for each. -/
structure CompilerOptions where
  target : ScriptTarget := .esNext
  module : ModuleKind := .esNext
  moduleResolution : ModuleResolution := .bundler
  jsx : JsxMode := .reactJSX
  strict : Bool := true
  allowJs : Bool := true
  checkJs : Bool := false
  noEmit : Bool := true
  esModuleInterop : Bool := true
  allowSyntheticDefaultImports : Bool := true
  skipLibCheck : Bool := true
  isolatedModules : Bool := true
  resolveJsonModule : Bool := true
  /-- The directory that alias targets are relative to. -/
  baseUrl : Text := ['.']
  paths : AliasTable := .empty
  typeRoots : List Text := [defaultTypeRoot]
  deriving DecidableEq, Repr

namespace CompilerOptions

/-- The options without any document. -/
def default : CompilerOptions := {}

/-- The options that documents ask for, with defaults for the rest. -/
def ofRaw (o : RawOptions) : CompilerOptions where
  target := (o.target.bind ScriptTarget.ofText?).getD default.target
  module := (o.module.bind ModuleKind.ofText?).getD default.module
  moduleResolution :=
    (o.moduleResolution.bind ModuleResolution.ofText?).getD default.moduleResolution
  jsx := (o.jsx.bind JsxMode.ofText?).getD default.jsx
  strict := o.strict.getD default.strict
  allowJs := o.allowJs.getD default.allowJs
  checkJs := o.checkJs.getD default.checkJs
  noEmit := o.noEmit.getD default.noEmit
  esModuleInterop := o.esModuleInterop.getD default.esModuleInterop
  allowSyntheticDefaultImports :=
    o.allowSyntheticDefaultImports.getD default.allowSyntheticDefaultImports
  skipLibCheck := o.skipLibCheck.getD default.skipLibCheck
  isolatedModules := o.isolatedModules.getD default.isolatedModules
  resolveJsonModule := o.resolveJsonModule.getD default.resolveJsonModule
  baseUrl := o.baseUrl.getD default.baseUrl
  paths := o.paths.getD default.paths
  typeRoots := o.typeRoots.getD default.typeRoots

/-- The options by name in the order of their declaration, with the alias table in the form that
is asked for. -/
def members (table : AliasTable → Json.Value) (o : CompilerOptions) :
    List (Text × Json.Value) :=
  let text (s : String) : Json.Value := .string s.toList
  [("target".toList, text o.target.name),
    ("module".toList, text o.module.name),
    ("moduleResolution".toList, text o.moduleResolution.name),
    ("jsx".toList, text o.jsx.name),
    ("strict".toList, .bool o.strict),
    ("allowJs".toList, .bool o.allowJs),
    ("checkJs".toList, .bool o.checkJs),
    ("noEmit".toList, .bool o.noEmit),
    ("esModuleInterop".toList, .bool o.esModuleInterop),
    ("allowSyntheticDefaultImports".toList, .bool o.allowSyntheticDefaultImports),
    ("skipLibCheck".toList, .bool o.skipLibCheck),
    ("isolatedModules".toList, .bool o.isolatedModules),
    ("resolveJsonModule".toList, .bool o.resolveJsonModule),
    ("baseUrl".toList, .string o.baseUrl),
    ("paths".toList, table o.paths),
    ("typeRoots".toList, .list (o.typeRoots.map .string))]

/-- The options as an object. -/
def toValue (o : CompilerOptions) : Json.Value :=
  .object (o.members AliasTable.toValue)

end CompilerOptions

end SourceClosure
