import SourceClosure.Alias.Table

/-!
# Compiler options as documents give them

`RawOptions` holds what one document says about the compiler options, each of which it may
leave unset. `RawOptions.inherit` fills what is unset from the options of a base document, so
the document that extends another wins option by option.
-/

namespace SourceClosure

/-- The compiler options of a document, as they are written there. -/
structure RawOptions where
  target : Option Text := none
  module : Option Text := none
  moduleResolution : Option Text := none
  jsx : Option Text := none
  strict : Option Bool := none
  allowJs : Option Bool := none
  checkJs : Option Bool := none
  noEmit : Option Bool := none
  esModuleInterop : Option Bool := none
  allowSyntheticDefaultImports : Option Bool := none
  skipLibCheck : Option Bool := none
  isolatedModules : Option Bool := none
  resolveJsonModule : Option Bool := none
  baseUrl : Option Text := none
  paths : Option AliasTable := none
  typeRoots : Option (List Text) := none
  deriving DecidableEq, Repr

namespace RawOptions

/-- The options with every unset one taken from `base`. -/
def inherit (o base : RawOptions) : RawOptions where
  target := o.target <|> base.target
  module := o.module <|> base.module
  moduleResolution := o.moduleResolution <|> base.moduleResolution
  jsx := o.jsx <|> base.jsx
  strict := o.strict <|> base.strict
  allowJs := o.allowJs <|> base.allowJs
  checkJs := o.checkJs <|> base.checkJs
  noEmit := o.noEmit <|> base.noEmit
  esModuleInterop := o.esModuleInterop <|> base.esModuleInterop
  allowSyntheticDefaultImports :=
    o.allowSyntheticDefaultImports <|> base.allowSyntheticDefaultImports
  skipLibCheck := o.skipLibCheck <|> base.skipLibCheck
  isolatedModules := o.isolatedModules <|> base.isolatedModules
  resolveJsonModule := o.resolveJsonModule <|> base.resolveJsonModule
  baseUrl := o.baseUrl <|> base.baseUrl
  paths := o.paths <|> base.paths
  typeRoots := o.typeRoots <|> base.typeRoots

/-- The options of a list of documents of which each extends the next. -/
def merge : List RawOptions → RawOptions
  | [] => {}
  | o :: bases => bases.foldl inherit o

/-! ## JSON form -/

/-- A text option. -/
def textField (name : String) (set : RawOptions → Option Text → RawOptions) :
    Json.Field RawOptions :=
  .of name (Json.readOptional Json.readString) set

/-- An option that is switched on or off. -/
def switchField (name : String) (set : RawOptions → Option Bool → RawOptions) :
    Json.Field RawOptions :=
  .of name (Json.readOptional Json.readBool) set

/-- The options in the order of their declaration; the alias table may have at most `room`
levels of brackets. -/
def fields (room : Nat) : List (Json.Field RawOptions) :=
  [textField "target" (fun o v => { o with target := v }),
    textField "module" (fun o v => { o with module := v }),
    textField "moduleResolution" (fun o v => { o with moduleResolution := v }),
    textField "jsx" (fun o v => { o with jsx := v }),
    switchField "strict" (fun o v => { o with strict := v }),
    switchField "allowJs" (fun o v => { o with allowJs := v }),
    switchField "checkJs" (fun o v => { o with checkJs := v }),
    switchField "noEmit" (fun o v => { o with noEmit := v }),
    switchField "esModuleInterop" (fun o v => { o with esModuleInterop := v }),
    switchField "allowSyntheticDefaultImports"
      (fun o v => { o with allowSyntheticDefaultImports := v }),
    switchField "skipLibCheck" (fun o v => { o with skipLibCheck := v }),
    switchField "isolatedModules" (fun o v => { o with isolatedModules := v }),
    switchField "resolveJsonModule" (fun o v => { o with resolveJsonModule := v }),
    textField "baseUrl" (fun o v => { o with baseUrl := v }),
    .of "paths" (Json.readOptional (AliasTable.read room)) (fun o v => { o with paths := v }),
    .of "typeRoots" (Json.readOptional (Json.readList Json.readString))
      (fun o v => { o with typeRoots := v })]

/-- Options of at most `room` levels of brackets, their own included. -/
def read (room : Nat) : Json.Reader RawOptions :=
  Json.readRecord (fields (room - 1)) false {}

end RawOptions

end SourceClosure
