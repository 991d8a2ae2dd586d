import SourceClosure.Path.Basic

/-!
# File suffixes

The suffixes that tell what a file holds: a script, a declaration file or a JSON document. A
suffix is recognised whatever the case of its letters. Declaration suffixes are longer than
the script suffixes they end with and are looked for first.
-/

namespace SourceClosure

/-- The kinds of file that are told apart by their suffix. -/
inductive Suffix where
  | dts | dmts | dcts | ts | tsx | mts | cts | js | jsx | mjs | cjs | json
  deriving DecidableEq, Repr

namespace Suffix

/-- All suffixes, declarations first. -/
def all : List Suffix :=
  [dts, dmts, dcts, ts, tsx, mts, cts, js, jsx, mjs, cjs, json]

/-- The suffix as it is written, dot included. -/
def text : Suffix → Text
  | dts => ".d.ts".toList
  | dmts => ".d.mts".toList
  | dcts => ".d.cts".toList
  | ts => ".ts".toList
  | tsx => ".tsx".toList
  | mts => ".mts".toList
  | cts => ".cts".toList
  | js => ".js".toList
  | jsx => ".jsx".toList
  | mjs => ".mjs".toList
  | cjs => ".cjs".toList
  | json => ".json".toList

/-- Whether files with this suffix hold declarations only. -/
def isDeclaration : Suffix → Bool
  | dts | dmts | dcts => true
  | _ => false

/-- Whether files with this suffix are scripts, which an editor can have open. -/
def isScript (s : Suffix) : Bool :=
  !s.isDeclaration && s != json

/-- The suffix of a path, whatever the case of its letters. -/
def ofPath? (p : Text) : Option Suffix :=
  all.find? (fun s => s.text.isSuffixOf (Text.lower p))

end Suffix

namespace Path

/-- Whether the path ends in a suffix of the table. -/
def hasSuffix (p : Text) : Bool :=
  (Suffix.ofPath? p).isSome

/-- Whether the path names a declaration file. -/
def isDeclaration (p : Text) : Bool :=
  (Suffix.ofPath? p).any Suffix.isDeclaration

/-- Whether the path names a script. -/
def isScript (p : Text) : Bool :=
  (Suffix.ofPath? p).any Suffix.isScript

/-- The path without its suffix; a path without one stays. -/
def withoutSuffix (p : Text) : Text :=
  match Suffix.ofPath? p with
  | some s => p.take (p.length - s.text.length)
  | none => p

end Path

end SourceClosure
