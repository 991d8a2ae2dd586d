import SourceClosure.Text.Blank
import SourceClosure.Text.Word

/-!
# Finding specifiers in source text

Specifiers are found by their shape, without parsing the language. A statement starts with
`import`, `export` or `require` that does not continue a name, and has one of two forms:

* a keyword, a clause, and a quoted text, as in `import { a } from "b"`, where the clause is
  blank, or the word `type`, or something that ends in the word `from`;
* a keyword and a quoted text in parentheses, as in `require("b")`.

A clause holds no quotation mark, so the quoted text starts at the first one. The scan takes
the first statement, goes on behind it, and so never finds one statement inside another. Text
in comments and strings that has the shape of a statement is found as well.
-/

namespace SourceClosure

namespace Specifier

/-! ## Characters -/

/-- Whether the character may continue a name, so that no keyword starts behind it. -/
def continuesName (c : Char) : Bool :=
  Text.isWord c || c == '$' || c == '.'

/-- Whether the character may stand in a clause. -/
def isClauseChar (c : Char) : Bool :=
  Text.isWord c || c == '$' || c == '*' || c == '{' || c == '}' || c == ',' || Text.isBlank c

/-- Whether the character opens or closes a quoted text. -/
def isQuote (c : Char) : Bool :=
  c == '"' || c == '\x27'

/-- Whether the character may stand in a quoted text. -/
def isQuotable (c : Char) : Bool :=
  !isQuote c && c != '\n'

/-! ## Parts of a statement -/

/-- A quoted text that comes next, and what follows it. It is not empty, stays on its line, and
its two quotation marks need not be alike. -/
def quoted? : Text → Option (Text × Text)
  | [] => none
  | c :: rest =>
    if isQuote c then
      match rest.takeWhile isQuotable, rest.dropWhile isQuotable with
      | [], _ => none
      | inner, d :: rest => if isQuote d then some (inner, rest) else none
      | _, [] => none
    else none

/-- The quoted text behind a clause that is blank. -/
def afterBlank? (t : Text) : Option (Text × Text) :=
  quoted? (t.dropWhile Text.isBlank)

/-- The quoted text behind a clause that is the word `type` with blanks behind it and perhaps
before it. -/
def afterType? (t : Text) : Option (Text × Text) :=
  match Text.after? "type".toList (t.dropWhile Text.isBlank) with
  | some (c :: rest) => if Text.isBlank c then afterBlank? rest else none
  | _ => none

/-- Whether the clause ends in the word `from`, with something before it and perhaps blanks
behind it. -/
def isFromClause (clause : Text) : Bool :=
  match Text.before? "from".toList (Text.trimEnd Text.isBlank clause) with
  | some rest => !rest.isEmpty
  | none => false

/-- The quoted text behind a clause that ends in the word `from`. -/
def afterFrom? (t : Text) : Option (Text × Text) :=
  if isFromClause (t.takeWhile isClauseChar) then quoted? (t.dropWhile isClauseChar) else none

/-- The quoted text behind a clause, which does not end in the word `from` if `barren` is set. -/
def afterClause? (barren : Bool) (t : Text) : Option (Text × Text) :=
  match afterBlank? t with
  | some found => some found
  | none =>
    match afterType? t with
    | some found => some found
    | none => if barren then none else afterFrom? t

/-- The quoted text in parentheses. -/
def inParentheses? (t : Text) : Option (Text × Text) :=
  match t.dropWhile Text.isBlank with
  | '(' :: rest =>
    match quoted? (rest.dropWhile Text.isBlank) with
    | some (inner, rest) =>
      match rest.dropWhile Text.isBlank with
      | ')' :: rest => some (inner, rest)
      | _ => none
    | none => none
  | _ => none

/-- What follows a keyword behind which a clause may stand, if one comes next. -/
def afterKeyword? (t : Text) : Option Text :=
  (Text.after? "import".toList t).or (Text.after? "export".toList t)

/-- The quoted text of the statement that comes next, and what follows the statement. Its clause
does not end in the word `from` if `barren` is set. -/
def statement? (barren : Bool) (t : Text) : Option (Text × Text) :=
  match Text.after? "import".toList t with
  | some rest => (afterClause? barren rest).or (inParentheses? rest)
  | none =>
    match Text.after? "export".toList t with
    | some rest => afterClause? barren rest
    | none => (Text.after? "require".toList t).bind inParentheses?

/-! ## The scan -/

/-- The quoted texts of the statements in the text, after those already `found`, last first.
`free` tells whether a keyword may start here. `barren` tells that a keyword was passed already in
this run of characters of a clause: clauses end where the run does, so what failed behind that
keyword for a clause that ends in `from` fails behind every other keyword of the run. Each round
takes a statement or a character, so a `bound` no shorter than the text is never used up before
it. -/
def scanFrom : (bound : Text) → (free barren : Bool) → (found : List Text) → Text → List Text
  | _ :: bound, free, barren, found, c :: rest =>
    match if free then statement? barren (c :: rest) else none with
    | some (inner, rest) => scanFrom bound false false (inner :: found) rest
    | none =>
      let passed := barren || (free && (afterKeyword? (c :: rest)).isSome)
      scanFrom bound (!continuesName c) (passed && isClauseChar c) found rest
  | _, _, _, found, _ => found.reverse

/-- The quoted texts of the statements in the text, in order. -/
def statements (t : Text) : List Text :=
  scanFrom t true false [] t

/-- The specifiers in the text without blanks around them, in the order of their first
occurrence. -/
def extract (t : Text) : List Text :=
  Text.distinct (((statements t).map Text.strip).filter (fun s => !s.isEmpty))

end Specifier

end SourceClosure
