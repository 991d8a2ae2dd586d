import SourceClosure.Json.Skip

/-!
# Reading values of a known shape

Readers for values of which the kind is known beforehand. A record is written as an object
whose members are its fields by name, or as a list of its fields in order. In an object a field
may be given once only, fields that are not given keep their initial value, and members with
other names are passed over.
-/

namespace SourceClosure

namespace Json

/-! ## Scalars and lists -/

/-- A scalar of a certain kind. -/
def readScalar {α : Type} (kind : Value → Option α) : Reader α := do
  match ← readHead with
  | .scalar v => match kind v with
    | some a => return a
    | none => throw .unexpected
  | _ => throw .unexpected

/-- A string. -/
def readString : Reader Text :=
  readScalar Value.string?

/-- A truth value. -/
def readBool : Reader Bool :=
  readScalar Value.bool?

/-- A natural number of at most 64 bits, written without fraction and exponent. -/
def readNat : Reader Nat :=
  readScalar Value.nat?

/-- A list of items of one shape. -/
def readList {α : Type} (item : Reader α) : Reader (List α) := do
  match ← readHead with
  | .list => readItems item
  | _ => throw .unexpected

/-- A value that may also be `null`. -/
def readOptional {α : Type} (value : Reader α) : Reader (Option α) := fun t =>
  match skipSpace t with
  | 'n' :: rest => (expectWord "ull".toList rest).map (none, ·)
  | _ => (some <$> value : Reader (Option α)) t

/-- An object as its members in order, repetitions included. -/
def readTable {α : Type} (value : Reader α) : Reader (List (Text × α)) := do
  match ← readHead with
  | .object => readPairs value
  | _ => throw .unexpected

/-! ## One string or several -/

/-- A string, or a list of strings. -/
inductive OneOrMany where
  | one (s : Text)
  | many (ss : List Text)
  deriving DecidableEq, Repr

namespace OneOrMany

/-- The strings in order. -/
def toList : OneOrMany → List Text
  | one s => [s]
  | many ss => ss

/-- The strings that a value holds, if it holds nothing else. -/
def ofValue? : Value → Option OneOrMany
  | .string s => some (one s)
  | .list items => many <$> items.mapM Value.string?
  | _ => none

end OneOrMany

/-- One string or a list of strings. The value is read whole, with at most `room` levels of
brackets, before its kind is looked at. -/
def readOneOrMany (room : Nat) : Reader OneOrMany := do
  match OneOrMany.ofValue? (← readValue room) with
  | some strings => return strings
  | none => throw .unexpected

/-! ## Records -/

/-- A field of a record `σ`: its name, and how its value is read into the record. -/
structure Field (σ : Type) where
  name : Text
  read : σ → Reader σ

/-- A field whose value is read by `value` and put into the record by `set`. -/
def Field.of {σ α : Type} (name : String) (value : Reader α) (set : σ → α → σ) : Field σ :=
  ⟨name.toList, fun s => set s <$> value⟩

/-- One member of a record's object. The state holds the names of the fields given so far. -/
def readField {σ : Type} (fields : List (Field σ)) (state : List Text × σ) (name : Text) :
    Reader (List Text × σ) :=
  match fields.find? (fun f => f.name = name) with
  | none => do
    readMemberValue skipValue
    return state
  | some f =>
    if state.1.contains name then throw .unexpected
    else (fun s => (name :: state.1, s)) <$> readMemberValue (f.read state.2)

/-- The end of a list that holds no more items. -/
def closeList : Reader Unit := fun t =>
  match skipSpace t with
  | [] => .error .ended
  | c :: rest => if c = ']' then .ok ((), rest) else .error .malformed

/-- The fields of a record written as a list. Where the list is too short, the other fields keep
their initial value if `partly` is set. -/
def readFields {σ : Type} (partly : Bool) :
    (first : Bool) → List (Field σ) → σ → Reader σ
  | _, [], s => do
    closeList
    return s
  | first, f :: fields, s => fun t =>
    match nextItem first t with
    | .error fault => .error fault
    | .ok (.close rest) => if partly then .ok (s, rest) else .error .unexpected
    | .ok (.item t) =>
      match f.read s t with
      | .error fault => .error fault
      | .ok (s, rest) => readFields partly false fields s rest

/-- A record, from an initial one. As a list it has to be complete unless `partly` is set. -/
def readRecord {σ : Type} (fields : List (Field σ)) (partly : Bool) (initial : σ) :
    Reader σ := do
  match ← readHead with
  | .object => Prod.snd <$> readMembers (readField fields) ([], initial)
  | .list => readFields partly true fields initial
  | .scalar _ => throw .unexpected

end Json

end SourceClosure
