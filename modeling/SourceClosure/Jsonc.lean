import SourceClosure.Text.Blank

/-!
# Relaxed JSON

Configuration documents are JSON with comments and trailing commas. Two passes over the
characters turn such a text into strict JSON: `stripComments` removes comments but keeps the
line breaks inside them, and `stripTrailingCommas` removes the commas before a closing
bracket. Each pass is a small machine that tells strings from the rest of the text, so that
whatever stands inside a string survives. Neither knows the grammar of JSON.
-/

namespace SourceClosure

namespace Jsonc

/-! ## Comments -/

/-- Where in the text a character stands, as far as comments are concerned. -/
inductive Place where
  /-- Outside of strings and comments. -/
  | code
  /-- Behind a slash that may start a comment. -/
  | slash
  /-- In a comment that ends with its line. -/
  | line
  /-- In a comment that ends with an asterisk and a slash; whether the asterisk was just read. -/
  | block (asterisk : Bool)
  /-- In a string. -/
  | string
  /-- Behind a backslash in a string. -/
  | escape
  deriving DecidableEq, Repr

/-- What a character does outside of strings and comments: the next place, and what is kept. -/
def enterCode (c : Char) : Place × Text :=
  if c = '"' then (.string, [c])
  else if c = '/' then (.slash, [])
  else (.code, [c])

/-- What a character does at a place: the next place, and the characters that are kept. -/
def Place.step : Place → Char → Place × Text
  | .code, c => enterCode c
  | .slash, c =>
    if c = '/' then (.line, [])
    else if c = '*' then (.block false, [])
    else
      let (place, kept) := enterCode c
      (place, '/' :: kept)
  | .line, c => if c = '\n' then (.code, [c]) else (.line, [])
  | .block asterisk, c =>
    if asterisk && c == '/' then (.code, [])
    else (.block (c == '*'), if c = '\n' then [c] else [])
  | .string, c =>
    (if c = '\\' then .escape else if c = '"' then .code else .string, [c])
  | .escape, c => (.string, [c])

/-- What is kept when the text ends at a place. -/
def Place.final : Place → Text
  | .slash => ['/']
  | _ => []

/-- The place reached after the text, and all that was kept on the way, last character first. -/
def scanComments (place : Place) (kept t : Text) : Place × Text :=
  t.foldl
    (fun (place, kept) c =>
      let (place, more) := place.step c
      (place, more.reverse ++ kept))
    (place, kept)

/-- The text without its comments; line breaks inside comments stay. -/
def stripComments (t : Text) : Text :=
  let (place, kept) := scanComments .code [] t
  kept.reverse ++ place.final

/-! ## Trailing commas -/

/-- Where in the text a character stands, as far as commas are concerned. -/
inductive Spot where
  /-- Outside of strings. -/
  | code
  /-- Behind a comma, with only these blank characters, last first, after it. -/
  | comma (blanks : Text)
  /-- In a string. -/
  | string
  /-- Behind a backslash in a string. -/
  | escape
  deriving DecidableEq, Repr

/-- The characters held back behind a comma, last first, with or without the comma. -/
def Spot.held (withComma : Bool) : Spot → Text
  | .comma blanks => if withComma then blanks ++ [','] else blanks
  | _ => []

/-- What a character does at a spot outside of strings: the next spot, and what is put out, last
character first. -/
def stepCode (spot : Spot) (c : Char) : Spot × Text :=
  if c = ',' then (.comma [], spot.held true)
  else if c = '}' ∨ c = ']' then (.code, c :: spot.held false)
  else if Text.isBlank c then
    match spot with
    | .comma blanks => (.comma (c :: blanks), [])
    | spot => (spot, [c])
  else (if c = '"' then .string else .code, c :: spot.held true)

/-- What a character does at a spot: the next spot, and what is put out, last character first. -/
def Spot.step : Spot → Char → Spot × Text
  | .string, c =>
    (if c = '\\' then .escape else if c = '"' then .code else .string, [c])
  | .escape, c => (.string, [c])
  | spot, c => stepCode spot c

/-- The spot reached after the text, and all that was put out on the way, last character
first. -/
def scanCommas (spot : Spot) (out t : Text) : Spot × Text :=
  t.foldl
    (fun (spot, out) c =>
      let (spot, more) := spot.step c
      (spot, more ++ out))
    (spot, out)

/-- The text without the commas that stand before a closing bracket with only blank characters
between; of several such commas in a row only the last is removed. -/
def stripTrailingCommas (t : Text) : Text :=
  let (spot, out) := scanCommas .code [] t
  (spot.held true ++ out).reverse

/-- The strict form of a relaxed text. -/
def toStrict (t : Text) : Text :=
  stripTrailingCommas (stripComments t)

end Jsonc

end SourceClosure
