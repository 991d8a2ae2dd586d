import SourceClosure.Json.Value

/-!
# Writing JSON

A value is written without any spacing (`Value.compact`), or over several lines with an indent
of two spaces for each level (`Value.pretty`). Empty lists and objects take no lines. Members
are written in their order, repetitions included.
-/

namespace SourceClosure

namespace Json

/-! ## Numbers -/

/-- A numeral as it is written. -/
def Numeral.text (n : Numeral) : Text :=
  (if n.negative then ['-'] else []) ++ n.whole
    ++ (match n.fraction with
      | none => []
      | some digits => '.' :: digits)
    ++ (match n.exponent with
      | none => []
      | some (negative, digits) => 'e' :: (if negative then ['-'] else []) ++ digits)

/-- A truth value as it is written. -/
def boolText (b : Bool) : Text :=
  if b then "true".toList else "false".toList

namespace Value

/-! ## On one line -/

mutual

/-- The value without any spacing. -/
def compact : Value → Text
  | null => "null".toList
  | bool b => boolText b
  | number n => n.text
  | string s => quote s
  | list items => '[' :: compactItems items ++ [']']
  | object members => '{' :: compactMembers members ++ ['}']

/-- Items with commas between them. -/
def compactItems : List Value → Text
  | [] => []
  | [v] => compact v
  | v :: items => compact v ++ ',' :: compactItems items

/-- Members with commas between them. -/
def compactMembers : List (Text × Value) → Text
  | [] => []
  | [(name, v)] => quote name ++ ':' :: compact v
  | (name, v) :: members => quote name ++ ':' :: compact v ++ ',' :: compactMembers members

end

/-! ## Over several lines -/

/-- A line break and the indent of a level. -/
def newLine (level : Nat) : Text :=
  '\n' :: List.replicate (2 * level) ' '

mutual

/-- The value over several lines, its first line at the given level. -/
def prettyAt (level : Nat) : Value → Text
  | null => "null".toList
  | bool b => boolText b
  | number n => n.text
  | string s => quote s
  | list [] => ['[', ']']
  | list items =>
    '[' :: prettyItems (level + 1) items ++ newLine level ++ [']']
  | object [] => ['{', '}']
  | object members =>
    '{' :: prettyMembers (level + 1) members ++ newLine level ++ ['}']

/-- Items on lines of their own. -/
def prettyItems (level : Nat) : List Value → Text
  | [] => []
  | [v] => newLine level ++ prettyAt level v
  | v :: items => newLine level ++ prettyAt level v ++ ',' :: prettyItems level items

/-- Members on lines of their own. -/
def prettyMembers (level : Nat) : List (Text × Value) → Text
  | [] => []
  | [(name, v)] => newLine level ++ quote name ++ ": ".toList ++ prettyAt level v
  | (name, v) :: members =>
    newLine level ++ quote name ++ ": ".toList ++ prettyAt level v
      ++ ',' :: prettyMembers level members

end

/-- The value over several lines. -/
def pretty (v : Value) : Text :=
  prettyAt 0 v

end Value

end Json

end SourceClosure
