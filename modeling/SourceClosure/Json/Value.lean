import SourceClosure.Json.Quoted
import SourceClosure.Json.Numeral

/-!
# JSON values

A value is read in two steps. `readHead` reads what a value starts with: a scalar is read
whole, of a list or an object only the opening bracket is. Whoever asks for a value of a
certain kind looks at the head and refuses others as unexpected, so a scalar of a wrong kind
still has to be well formed, while a bracket of a wrong kind is refused at sight.

`readValue` reads any value. Its argument bounds the nesting of brackets.
-/

namespace SourceClosure

namespace Json

/-- A JSON value. The members of an object keep their order and their repetitions. -/
inductive Value where
  | null
  | bool (b : Bool)
  | number (n : Numeral)
  | string (s : Text)
  | list (items : List Value)
  | object (members : List (Text × Value))

namespace Value

/-! ## Parts of a value -/

/-- The text of a string. -/
def string? : Value → Option Text
  | string s => some s
  | _ => none

/-- The truth value. -/
def bool? : Value → Option Bool
  | bool b => some b
  | _ => none

/-- The natural number of at most 64 bits. -/
def nat? : Value → Option Nat
  | number n => n.toNat?
  | _ => none

/-- The items of a list. -/
def items? : Value → Option (List Value)
  | list items => some items
  | _ => none

/-- The members of an object. -/
def members? : Value → Option (List (Text × Value))
  | object members => some members
  | _ => none

/-- The last member of an object under a name. -/
def member? (name : Text) (v : Value) : Option Value :=
  (v.members?.getD []).reverse.lookup name

/-- The numeral of a natural number. -/
def ofNat (n : Nat) : Value :=
  number (.ofNat n)

end Value

/-! ## The start of a value -/

/-- What a value starts with. -/
inductive Head where
  /-- A value without parts, read whole. -/
  | scalar (v : Value)
  /-- The opening bracket of a list. -/
  | list
  /-- The opening bracket of an object. -/
  | object

/-- A numeral whose magnitude fits a double. -/
def readNumber (t : Text) : Except Fault (Head × Text) := do
  let (n, rest) ← Numeral.read .ended t
  if n.overflows then throw .malformed
  return (.scalar (.number n), rest)

/-- The start of the value that comes next. -/
def readHead : Reader Head := fun t =>
  match skipSpace t with
  | [] => .error .ended
  | c :: rest =>
    if c = 'n' then (expectWord "ull".toList rest).map (.scalar .null, ·)
    else if c = 't' then (expectWord "rue".toList rest).map (.scalar (.bool true), ·)
    else if c = 'f' then (expectWord "alse".toList rest).map (.scalar (.bool false), ·)
    else if c = '"' then (readQuoted rest).map (fun (s, rest) => (.scalar (.string s), rest))
    else if c = '-' ∨ c.isDigit then readNumber (c :: rest)
    else if c = '[' then .ok (.list, rest)
    else if c = '{' then .ok (.object, rest)
    else .error .malformed

/-! ## Lists and objects -/

/-- What comes next inside a list or an object. -/
inductive Step where
  /-- The next item starts at this text; of a member the opening quotation mark is read. -/
  | item (t : Text)
  /-- The closing bracket has been read, and this text follows. -/
  | close (t : Text)

/-- The next item of a list; a comma stands before every item but the first. -/
def nextItem (first : Bool) (t : Text) : Except Fault Step :=
  match skipSpace t with
  | [] => .error .ended
  | c :: rest =>
    if c = ']' then .ok (.close rest)
    else if first then .ok (.item (c :: rest))
    else if c = ',' then
      match skipSpace rest with
      | [] => .error .ended
      | d :: rest => if d = ']' then .error .malformed else .ok (.item (d :: rest))
    else .error .malformed

/-- The opening quotation mark of a name. -/
def openName : Text → Except Fault Step
  | [] => .error .ended
  | c :: rest => if c = '"' then .ok (.item rest) else .error .malformed

/-- The next member of an object; a comma stands before every member but the first. -/
def nextMember (first : Bool) (t : Text) : Except Fault Step :=
  match skipSpace t with
  | [] => .error .ended
  | c :: rest =>
    if c = '}' then .ok (.close rest)
    else if first then openName (c :: rest)
    else if c = ',' then openName (skipSpace rest)
    else .error .malformed

/-- The items of a list whose opening bracket has been read, after those already `done`, last
first. Each round reads one item, so a `bound` no shorter than the text is never used up before
it. -/
def readItemsFrom {α : Type} (item : Reader α) :
    (bound : Text) → (first : Bool) → (done : List α) → Reader (List α)
  | [], _, _, _ => .error .ended
  | _ :: bound, first, done, t =>
    match nextItem first t with
    | .error fault => .error fault
    | .ok (.close rest) => .ok (done.reverse, rest)
    | .ok (.item t) =>
      match item t with
      | .error fault => .error fault
      | .ok (a, rest) => readItemsFrom item bound false (a :: done) rest

/-- The items of a list whose opening bracket has been read. -/
def readItems {α : Type} (item : Reader α) : Reader (List α) := fun t =>
  readItemsFrom item t true [] t

/-- The members of an object whose opening bracket has been read, folded into a state. `member`
is given the state and a member's name and reads the rest of the member, its colon first. Each
round reads one member, so a `bound` no shorter than the text is never used up before it. -/
def readMembersFrom {σ : Type} (member : σ → Text → Reader σ) :
    (bound : Text) → (first : Bool) → σ → Reader σ
  | [], _, _, _ => .error .ended
  | _ :: bound, first, s, t =>
    match nextMember first t with
    | .error fault => .error fault
    | .ok (.close rest) => .ok (s, rest)
    | .ok (.item t) =>
      match readQuoted t with
      | .error fault => .error fault
      | .ok (name, rest) =>
        match member s name rest with
        | .error fault => .error fault
        | .ok (s, rest) => readMembersFrom member bound false s rest

/-- The members of an object whose opening bracket has been read, folded into a state. -/
def readMembers {σ : Type} (member : σ → Text → Reader σ) (s : σ) : Reader σ := fun t =>
  readMembersFrom member t true s t

/-- The value of a member, after its colon. -/
def readMemberValue {α : Type} (value : Reader α) : Reader α := fun t => do
  value (← expectColon t)

/-- The members of an object with their names, in order. -/
def readPairs {α : Type} (value : Reader α) : Reader (List (Text × α)) := do
  let pairs ← readMembers
    (fun pairs name => (fun a => (name, a) :: pairs) <$> readMemberValue value) []
  return pairs.reverse

/-! ## Any value -/

/-- A value whose parts are read by `part`; without it there may be no brackets. -/
def readValueWith (part : Option (Reader Value)) : Reader Value := do
  match ← readHead, part with
  | .scalar v, _ => return v
  | .list, some part => return .list (← readItems part)
  | .object, some part => return .object (← readPairs part)
  | _, none => throw .malformed

/-- Any value of at most `room` levels of brackets. -/
def readValue : (room : Nat) → Reader Value
  | 0 => readValueWith none
  | room + 1 => readValueWith (some (readValue room))

/-- The number of levels of brackets that a text may have. -/
def maxNesting : Nat := 127

/-- A whole text that is read by `reader`, with nothing but spacing behind it. -/
def readAll {α : Type} (reader : Reader α) (t : Text) : Except Fault α := do
  let (a, rest) ← reader t
  expectEnd rest
  return a

/-- The value that a text holds. -/
def parse (t : Text) : Except Fault Value :=
  readAll (readValue maxNesting) t

end Json

end SourceClosure
