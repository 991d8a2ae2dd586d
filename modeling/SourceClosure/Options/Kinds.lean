import SourceClosure.Text.Basic

/-!
# Kinds of compiler option

Four compiler options take one of a few named values. A document may spell a value in any mix
of upper and lower case, and some values have two spellings; output always uses one name.
-/

namespace SourceClosure

/-- The value that a text spells in a list of spellings, whatever the case of its letters. -/
def ofSpelling? {α : Type} (spellings : List (String × α)) (t : Text) : Option α :=
  (spellings.find? (fun s => s.1.toList = Text.lower t)).map Prod.snd

/-! ## Script target -/

/-- The language version that scripts are meant for. -/
inductive ScriptTarget where
  | es5 | es2015 | es2016 | es2017 | es2018 | es2019 | es2020 | es2021 | es2022 | es2023
  | esNext
  deriving DecidableEq, Repr

namespace ScriptTarget

/-- The spellings in documents. -/
def spellings : List (String × ScriptTarget) :=
  [("es5", es5), ("es6", es2015), ("es2015", es2015), ("es2016", es2016), ("es2017", es2017),
    ("es2018", es2018), ("es2019", es2019), ("es2020", es2020), ("es2021", es2021),
    ("es2022", es2022), ("es2023", es2023), ("esnext", esNext), ("latest", esNext)]

/-- The target that a text spells. -/
def ofText? (t : Text) : Option ScriptTarget :=
  ofSpelling? spellings t

/-- The name in output. -/
def name : ScriptTarget → String
  | es5 => "ES5"
  | es2015 => "ES2015"
  | es2016 => "ES2016"
  | es2017 => "ES2017"
  | es2018 => "ES2018"
  | es2019 => "ES2019"
  | es2020 => "ES2020"
  | es2021 => "ES2021"
  | es2022 => "ES2022"
  | es2023 => "ES2023"
  | esNext => "ESNext"

end ScriptTarget

/-! ## Module kind -/

/-- The module system that scripts are meant for. -/
inductive ModuleKind where
  | commonJS | es2015 | es2020 | es2022 | esNext | node16 | nodeNext | preserve
  deriving DecidableEq, Repr

namespace ModuleKind

/-- The spellings in documents. -/
def spellings : List (String × ModuleKind) :=
  [("commonjs", commonJS), ("es6", es2015), ("es2015", es2015), ("es2020", es2020),
    ("es2022", es2022), ("esnext", esNext), ("node16", node16), ("nodenext", nodeNext),
    ("preserve", preserve)]

/-- The module kind that a text spells. -/
def ofText? (t : Text) : Option ModuleKind :=
  ofSpelling? spellings t

/-- The name in output. -/
def name : ModuleKind → String
  | commonJS => "CommonJS"
  | es2015 => "ES2015"
  | es2020 => "ES2020"
  | es2022 => "ES2022"
  | esNext => "ESNext"
  | node16 => "Node16"
  | nodeNext => "NodeNext"
  | preserve => "Preserve"

end ModuleKind

/-! ## Module resolution -/

/-- The strategy by which the engine resolves modules. -/
inductive ModuleResolution where
  | classic | node10 | node16 | nodeNext | bundler
  deriving DecidableEq, Repr

namespace ModuleResolution

/-- The spellings in documents. -/
def spellings : List (String × ModuleResolution) :=
  [("classic", classic), ("node", node10), ("node10", node10), ("node16", node16),
    ("nodenext", nodeNext), ("bundler", bundler)]

/-- The strategy that a text spells. -/
def ofText? (t : Text) : Option ModuleResolution :=
  ofSpelling? spellings t

/-- The name in output. -/
def name : ModuleResolution → String
  | classic => "Classic"
  | node10 => "Node10"
  | node16 => "Node16"
  | nodeNext => "NodeNext"
  | bundler => "Bundler"

end ModuleResolution

/-! ## JSX mode -/

/-- How JSX is emitted. -/
inductive JsxMode where
  | preserve | react | reactJSX | reactJSXDev | reactNative
  deriving DecidableEq, Repr

namespace JsxMode

/-- The spellings in documents. -/
def spellings : List (String × JsxMode) :=
  [("preserve", preserve), ("react", react), ("react-jsx", reactJSX),
    ("react-jsxdev", reactJSXDev), ("react-native", reactNative)]

/-- The mode that a text spells. -/
def ofText? (t : Text) : Option JsxMode :=
  ofSpelling? spellings t

/-- The name in output. -/
def name : JsxMode → String
  | preserve => "Preserve"
  | react => "React"
  | reactJSX => "ReactJSX"
  | reactJSXDev => "ReactJSXDev"
  | reactNative => "ReactNative"

end JsxMode

end SourceClosure
