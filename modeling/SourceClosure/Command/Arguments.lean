import SourceClosure.Command.Flag
import SourceClosure.Json.Numeral

/-!
# Arguments

Reading the words of a command line. Words are read from left to right: flags may stand between
files, letters of switches may be run together, and a value follows its option in the same word
or in the next one. The word `--` ends the flags. A word that starts with a hyphen is never a
file or a value of the word before it, save for a hyphen alone. Reading ends early at the first
mistake, and at the first flag that asks for the version or for help.
-/

namespace SourceClosure

/-! ## Words -/

/-- What a word of the command line is by its looks. -/
inductive Word where
  /-- Neither a flag nor the end of the flags. -/
  | plain (word : Text)
  /-- A flag by its name, with the value behind an equals sign. -/
  | long (name : Text) (value : Option Text)
  /-- Flags by their letters, perhaps with a value. -/
  | short (letters : Text)
  /-- The end of the flags. -/
  | dashes
  deriving DecidableEq, Repr

/-- What a word is by its looks. -/
def Word.ofText : Text → Word
  | ['-', '-'] => dashes
  | '-' :: '-' :: rest =>
    match Text.splitOnce '=' rest with
    | some (name, value) => long name (some value)
    | none => long rest none
  | '-' :: c :: rest => short (c :: rest)
  | word => plain word

/-! ## Mistakes -/

/-- Why a command line is refused. -/
inductive Misuse where
  | unknownFlag (written : Text)
  | repeatedFlag (flag : Flag)
  /-- A value is missing, or is empty where it must not be. -/
  | missingValue (flag : Flag)
  /-- A value was given to a switch. -/
  | needlessValue (flag : Flag)
  /-- The value is not a natural number of at most 64 bits. -/
  | badNumber (flag : Flag) (value : Text)
  | missingEntry
  deriving DecidableEq, Repr

/-- A flag with the hyphens of its long name. -/
def Flag.dashed (f : Flag) : Text :=
  "--".toList ++ f.name.toList

/-- The wording of a mistake. -/
def Misuse.message : Misuse → Text
  | unknownFlag written => "unexpected argument ".toList ++ written
  | repeatedFlag f => f.dashed ++ " cannot be used multiple times".toList
  | missingValue f => "a value is required for ".toList ++ f.dashed
  | needlessValue f => "no value is allowed for ".toList ++ f.dashed
  | badNumber f value => value ++ " is not a number for ".toList ++ f.dashed
  | missingEntry => "the file to start from is missing".toList

/-- Why the reading of a command line ended early. -/
inductive Stop where
  | version
  | help
  | misuse (m : Misuse)
  deriving DecidableEq, Repr

/-! ## Flags and their values -/

/-- What a command line asks for. -/
structure Arguments where
  /-- The files, in order. -/
  files : List Text := []
  /-- The flags given so far. -/
  flags : List Flag := []
  /-- The project's directory. -/
  project : Text := ['.']
  /-- The path of the settings. -/
  settings : Option Text := none
  maxDepth : Option Nat := none
  maxDeclarationSize : Option Nat := none
  deriving DecidableEq, Repr

namespace Arguments

/-- Whether a flag was given. -/
def has (a : Arguments) (f : Flag) : Bool :=
  a.flags.contains f

/-- The arguments with one more file. -/
def addFile (a : Arguments) (path : Text) : Arguments :=
  { a with files := a.files ++ [path] }

/-- The number that decimal digits spell, perhaps behind a plus sign, if it has at most 64
bits. -/
def number? (value : Text) : Option Nat :=
  let digits := (Text.after? ['+'] value).getD value
  let n := Json.Numeral.ofDigits digits
  if digits ≠ [] ∧ digits.all Char.isDigit ∧ n ≤ Json.Numeral.maxWord then some n
  else none

/-- The number that is the value of an option. -/
def readNumber (f : Flag) (value : Text) : Except Stop Nat :=
  match number? value with
  | some n => .ok n
  | none => .error (.misuse (.badNumber f value))

/-- The path that is the value of an option. -/
def readPath (f : Flag) (value : Text) : Except Stop Text :=
  if value = [] then .error (.misuse (.missingValue f)) else .ok value

/-- The arguments with the value of an option, or with a switch, where the value is idle. -/
def give (f : Flag) (value : Text) (a : Arguments) : Except Stop Arguments := do
  if a.has f then throw (.misuse (.repeatedFlag f))
  let a := { a with flags := f :: a.flags }
  match f with
  | .project => return { a with project := ← readPath f value }
  | .settings => return { a with settings := some (← readPath f value) }
  | .maxDepth => return { a with maxDepth := some (← readNumber f value) }
  | .maxDeclarationSize => return { a with maxDeclarationSize := some (← readNumber f value) }
  | .version => throw .version
  | .help => throw .help
  | .noPriorityPackages | .json | .verbose | .quiet | .noColor => return a

end Arguments

/-! ## Reading -/

/-- How far a command line was read. -/
structure Reading where
  arguments : Arguments := {}
  /-- The option whose value is the next word. -/
  waiting : Option Flag := none
  /-- Whether the flags have ended. -/
  closed : Bool := false
  deriving DecidableEq, Repr

namespace Reading

/-- Reads a flag by its name. -/
def readLong (a : Arguments) (name : Text) (value : Option Text) : Except Stop Reading := do
  match Flag.ofName? name with
  | none => throw (.misuse (.unknownFlag ("--".toList ++ name)))
  | some f =>
    match f.takesValue, value with
    | true, none => return { arguments := a, waiting := some f }
    | true, some value => return { arguments := ← a.give f value }
    | false, none => return { arguments := ← a.give f [] }
    | false, some _ => throw (.misuse (.needlessValue f))

/-- Reads flags by their letters. What follows the letter of an option is its value, save for one
equals sign. -/
def readShort (a : Arguments) : (letters : Text) → Except Stop Reading
  | [] => .ok { arguments := a }
  | c :: letters =>
    match Flag.ofLetter? c with
    | none => .error (.misuse (.unknownFlag ['-', c]))
    | some f =>
      if f.takesValue then
        if letters = [] then .ok { arguments := a, waiting := some f }
        else do return { arguments := ← a.give f ((Text.after? ['='] letters).getD letters) }
      else do readShort (← a.give f []) letters

/-- Reads one more word. -/
def readWord (r : Reading) (word : Text) : Except Stop Reading :=
  if r.closed then .ok { r with arguments := r.arguments.addFile word }
  else
    match r.waiting, Word.ofText word with
    | some f, .plain value => do return { arguments := ← r.arguments.give f value }
    | some f, _ => .error (.misuse (.missingValue f))
    | none, .plain path => .ok { r with arguments := r.arguments.addFile path }
    | none, .long name value => readLong r.arguments name value
    | none, .short letters => readShort r.arguments letters
    | none, .dashes => .ok { r with closed := true }

/-- What is asked for, once there are no more words. -/
def finish (r : Reading) : Except Stop Arguments :=
  match r.waiting with
  | some f => .error (.misuse (.missingValue f))
  | none =>
    if r.arguments.files = [] then .error (.misuse .missingEntry) else .ok r.arguments

end Reading

namespace Arguments

/-- What a command line asks for. -/
def parse (words : List Text) : Except Stop Arguments := do
  (← words.foldlM Reading.readWord {}).finish

end Arguments

end SourceClosure
