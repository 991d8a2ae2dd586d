import SourceClosure.Json.Value

/-!
# Skipping a value

A value that nobody asks for is checked against the grammar and passed over. Brackets may nest
to any depth, so the brackets that are open are kept in a list instead of in nested calls. The
size of numbers and the pairing of surrogates do not matter here, and a number that breaks off
at the end of the text breaks the grammar.
-/

namespace SourceClosure

namespace Json

/-- An open bracket. -/
inductive Bracket where
  | list
  | object
  deriving DecidableEq, Repr

/-- Whether a value or what follows a value comes next. -/
inductive Expecting where
  | value
  | rest
  deriving DecidableEq, Repr

/-- What follows the value that has no parts and comes next. -/
def skipScalar (t : Text) : Except Fault Text :=
  match t with
  | [] => .error .ended
  | c :: rest =>
    if c = 'n' then expectWord "ull".toList rest
    else if c = 't' then expectWord "rue".toList rest
    else if c = 'f' then expectWord "alse".toList rest
    else if c = '"' then skipQuoted rest
    else if c = '-' ∨ c.isDigit then (Numeral.read .malformed (c :: rest)).map Prod.snd
    else .error .malformed

/-- What follows the name and the colon of a member. -/
def skipName (t : Text) : Except Fault Text :=
  match skipSpace t with
  | [] => .error .ended
  | c :: rest =>
    if c = '"' then skipQuoted rest >>= expectColon
    else .error .malformed

/-- What follows the start of an item inside the bracket, which is the member's name in an
object and nothing in a list. -/
def skipItemStart : Bracket → Text → Except Fault Text
  | .list, t => .ok t
  | .object, t => skipName t

/-- The character that closes the bracket. -/
def Bracket.closing : Bracket → Char
  | .list => ']'
  | .object => '}'

/-- What follows the value that is being passed over, inside the brackets that are open, the
innermost first. Each round takes at least one character, so a `bound` no shorter than the text is
never used up before it. -/
def skipFrom : (bound : Text) → Expecting → (opened : List Bracket) → Text → Except Fault Text
  | _, .rest, [], t => .ok t
  | [], _, _, _ => .error .ended
  | _ :: bound, .rest, b :: opened, t =>
    match skipSpace t with
    | [] => .error .ended
    | c :: rest =>
      if c = b.closing then skipFrom bound .rest opened rest
      else if c = ',' then
        match skipItemStart b rest with
        | .error fault => .error fault
        | .ok rest => skipFrom bound .value (b :: opened) rest
      else .error .malformed
  | _ :: bound, .value, opened, t =>
    match skipSpace t with
    | [] => .error .ended
    | c :: rest =>
      if c = '[' ∨ c = '{' then
        let b := if c = '[' then Bracket.list else Bracket.object
        match skipSpace rest with
        | [] => .error .ended
        | d :: rest =>
          if d = b.closing then skipFrom bound .rest opened rest
          else
            match skipItemStart b (d :: rest) with
            | .error fault => .error fault
            | .ok rest => skipFrom bound .value (b :: opened) rest
      else
        match skipScalar (c :: rest) with
        | .error fault => .error fault
        | .ok rest => skipFrom bound .rest opened rest

/-- Passes over the value that comes next. -/
def skipValue : Reader Unit := fun t =>
  (skipFrom t .value [] t).map ((), ·)

end Json

end SourceClosure
