import SourceClosure.Json.Basic

/-!
# Quoted strings

A string is written between quotation marks, with the quotation mark, the backslash and the
control characters escaped. Four hexadecimal digits after `\u` name a UTF-16 unit, so a
character beyond U+FFFF takes two of them, a leading and a trailing surrogate.

`readQuoted` reads the characters of a string, for which surrogates have to be paired.
`skipQuoted` only finds the end of a string whose characters nobody asks for; it checks the
form of the escapes and leaves surrogates alone. `quote` writes a string.
-/

namespace SourceClosure

namespace Json

/-! ## Escapes -/

/-- The value of a hexadecimal digit. -/
def hexValue? (c : Char) : Option Nat :=
  let n := c.toNat
  if '0'.toNat ≤ n ∧ n ≤ '9'.toNat then some (n - '0'.toNat)
  else if 'a'.toNat ≤ n ∧ n ≤ 'f'.toNat then some (n - 'a'.toNat + 10)
  else if 'A'.toNat ≤ n ∧ n ≤ 'F'.toNat then some (n - 'A'.toNat + 10)
  else none

/-- The value of four hexadecimal digits, most significant first. -/
def hexUnit? (a b c d : Char) : Option Nat := do
  let a ← hexValue? a
  let b ← hexValue? b
  let c ← hexValue? c
  let d ← hexValue? d
  return ((a * 16 + b) * 16 + c) * 16 + d

/-- Four hexadecimal digits. A text of fewer than four bytes ends too early for them. -/
def readUnit : Text → Except Fault (Nat × Text)
  | a :: b :: c :: d :: rest =>
    match hexUnit? a b c d with
    | some n => .ok (n, rest)
    | none => .error .malformed
  | t => if Text.byteLength t < 4 then .error .ended else .error .malformed

/-- Whether the UTF-16 unit is the first half of a pair. -/
def isLeading (n : Nat) : Bool :=
  0xD800 ≤ n && n ≤ 0xDBFF

/-- Whether the UTF-16 unit is the second half of a pair. -/
def isTrailing (n : Nat) : Bool :=
  0xDC00 ≤ n && n ≤ 0xDFFF

/-- The character that a pair of UTF-16 units stands for. -/
def pairChar (leading trailing : Nat) : Char :=
  Char.ofNat ((leading - 0xD800) * 0x400 + (trailing - 0xDC00) + 0x10000)

/-- The second half of a pair, escape marks included. -/
def readTrailing (t : Text) : Except Fault (Nat × Text) := do
  let (n, rest) ← readUnit (← expectWord ['\\', 'u'] t)
  if isTrailing n then return (n, rest) else throw .malformed

/-- The character named by the digits after an escaped `u`. -/
def readUnicode (t : Text) : Except Fault (Char × Text) := do
  let (n, rest) ← readUnit t
  if isTrailing n then throw .malformed
  if isLeading n then
    let (m, rest) ← readTrailing rest
    return (pairChar n m, rest)
  return (Char.ofNat n, rest)

/-- The character that a single letter stands for after a backslash. -/
def shortEscape? : Char → Option Char
  | '"' => some '"'
  | '\\' => some '\\'
  | '/' => some '/'
  | 'b' => some '\x08'
  | 'f' => some '\x0c'
  | 'n' => some '\n'
  | 'r' => some '\r'
  | 't' => some '\t'
  | _ => none

/-- The character that stands after a backslash in escaped form. -/
def readEscape : Text → Except Fault (Char × Text)
  | [] => .error .ended
  | c :: rest =>
    if c = 'u' then readUnicode rest
    else match shortEscape? c with
      | some e => .ok (e, rest)
      | none => .error .malformed

/-- What follows an escape whose character nobody asks for. -/
def skipEscape : Text → Except Fault Text
  | [] => .error .ended
  | c :: rest =>
    if c = 'u' then (readUnit rest).map Prod.snd
    else if (shortEscape? c).isSome then .ok rest
    else .error .malformed

/-! ## Strings -/

/-- Whether the character may not stand in a string as it is. -/
def isControl (c : Char) : Bool :=
  c.toNat < 0x20

/-- The characters up to the closing quotation mark, after those already `read`, last first. Each
round takes one character or escape, so a `bound` no shorter than the text is never used up
before it. -/
def readQuotedFrom : (bound : Text) → (read : Text) → Text → Except Fault (Text × Text)
  | _ :: bound, read, c :: rest =>
    if c = '"' then .ok (read.reverse, rest)
    else if c = '\\' then
      match readEscape rest with
      | .error fault => .error fault
      | .ok (e, rest) => readQuotedFrom bound (e :: read) rest
    else if isControl c then .error .malformed
    else readQuotedFrom bound (c :: read) rest
  | _, _, _ => .error .ended

/-- The characters of a string whose opening quotation mark has been read. -/
def readQuoted (t : Text) : Except Fault (Text × Text) :=
  readQuotedFrom t [] t

/-- What follows the closing quotation mark. Each round takes one character or escape, so a `bound`
no shorter than the text is never used up before it. -/
def skipQuotedFrom : (bound : Text) → Text → Except Fault Text
  | _ :: bound, c :: rest =>
    if c = '"' then .ok rest
    else if c = '\\' then
      match skipEscape rest with
      | .error fault => .error fault
      | .ok rest => skipQuotedFrom bound rest
    else if isControl c then .error .malformed
    else skipQuotedFrom bound rest
  | _, _ => .error .ended

/-- What follows a string whose opening quotation mark has been read. -/
def skipQuoted (t : Text) : Except Fault Text :=
  skipQuotedFrom t t

/-! ## Writing -/

/-- The hexadecimal digit of a value below sixteen, in lower case. -/
def hexDigit (n : Nat) : Char :=
  if n < 10 then Char.ofNat ('0'.toNat + n) else Char.ofNat ('a'.toNat + (n - 10))

/-- A character as it is written in a string: only the quotation mark, the backslash and the
control characters are escaped, the latter by a letter where they have one. -/
def escape (c : Char) : Text :=
  if c = '"' then ['\\', '"']
  else if c = '\\' then ['\\', '\\']
  else if c = '\x08' then ['\\', 'b']
  else if c = '\x0c' then ['\\', 'f']
  else if c = '\n' then ['\\', 'n']
  else if c = '\r' then ['\\', 'r']
  else if c = '\t' then ['\\', 't']
  else if isControl c then
    ['\\', 'u', '0', '0', hexDigit (c.toNat / 16), hexDigit (c.toNat % 16)]
  else [c]

/-- A string as it is written, quotation marks included. -/
def quote (t : Text) : Text :=
  '"' :: t.flatMap escape ++ ['"']

end Json

end SourceClosure
