import SourceClosure.Text.Basic

/-!
# Reading JSON: faults and small readers

JSON is read strictly from left to right, and the first problem met decides the answer. There
are three kinds of problem (`Fault`): the text ends inside a value, it breaks the grammar, or
it is well formed so far but holds something else than what is asked for.

A reader takes the text at its position and answers with what it read and the text that is
left.
-/

namespace SourceClosure

namespace Json

/-- Why a text could not be read. -/
inductive Fault where
  /-- The text ended inside a value. -/
  | ended
  /-- The text breaks the grammar, or a limit on nesting or on the size of numbers. -/
  | malformed
  /-- The text is well formed so far but holds something else than what is asked for. -/
  | unexpected
  deriving DecidableEq, Repr

/-- A reader of an `α`, which leaves the rest of the text. -/
abbrev Reader (α : Type) := StateT Text (Except Fault) α

/-! ## Spacing and fixed words -/

/-- Whether the character may stand between the tokens of a JSON text. -/
def isSpace (c : Char) : Bool :=
  c == ' ' || c == '\t' || c == '\n' || c == '\r'

/-- The text from its first character that is not spacing. -/
def skipSpace (t : Text) : Text :=
  t.dropWhile isSpace

/-- What follows the given characters, which have to come next. -/
def expectWord : (word t : Text) → Except Fault Text
  | [], t => .ok t
  | _ :: _, [] => .error .ended
  | w :: word, c :: t => if c = w then expectWord word t else .error .malformed

/-- What follows the colon that has to come next. -/
def expectColon (t : Text) : Except Fault Text :=
  match skipSpace t with
  | [] => .error .ended
  | c :: rest => if c = ':' then .ok rest else .error .malformed

/-- Only spacing may be left of the text. -/
def expectEnd (t : Text) : Except Fault Unit :=
  match skipSpace t with
  | [] => .ok ()
  | _ :: _ => .error .malformed

end Json

end SourceClosure
