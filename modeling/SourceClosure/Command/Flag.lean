import SourceClosure.Text.Basic

/-!
# Flags

The flags of the command line. Each has a long name, which follows two hyphens, and some have a
letter, which follows one. A flag that takes a value is an option, and any other a switch.
-/

namespace SourceClosure

/-- A flag of the command line. -/
inductive Flag where
  /-- The project's directory. -/
  | project
  /-- The file that holds the settings. -/
  | settings
  /-- How many files a chain of imports may have. -/
  | maxDepth
  /-- The size in bytes from which a declaration file is too large. -/
  | maxDeclarationSize
  /-- No packages are loaded before all others. -/
  | noPriorityPackages
  /-- The report is written as JSON. -/
  | json
  /-- More messages are logged. -/
  | verbose
  /-- Only errors are logged. -/
  | quiet
  /-- Messages are logged without colours. -/
  | noColor
  /-- The command's name and version are printed, and nothing else is done. -/
  | version
  /-- The flags are explained, and nothing else is done. -/
  | help
  deriving DecidableEq, Repr

namespace Flag

/-- The flags in the order in which they are explained. -/
def all : List Flag :=
  [project, settings, maxDepth, maxDeclarationSize, noPriorityPackages, json, verbose, quiet,
    noColor, version, help]

/-- The long name. -/
def name : Flag → String
  | project => "project"
  | settings => "loader-config"
  | maxDepth => "max-depth"
  | maxDeclarationSize => "max-declaration-size"
  | noPriorityPackages => "no-priority-packages"
  | json => "json"
  | verbose => "verbose"
  | quiet => "quiet"
  | noColor => "no-color"
  | version => "version"
  | help => "help"

/-- The letter, if there is one. -/
def letter? : Flag → Option Char
  | project => some 'p'
  | verbose => some 'v'
  | quiet => some 'q'
  | version => some 'V'
  | help => some 'h'
  | _ => none

/-- What the value of an option is called. -/
def valueName? : Flag → Option String
  | project => some "DIR"
  | settings => some "FILE"
  | maxDepth | maxDeclarationSize => some "N"
  | _ => none

/-- Whether the flag is an option. -/
def takesValue (f : Flag) : Bool :=
  f.valueName?.isSome

/-- The flag of a long name. -/
def ofName? (name : Text) : Option Flag :=
  all.find? (fun f => f.name.toList = name)

/-- The flag of a letter. -/
def ofLetter? (c : Char) : Option Flag :=
  all.find? (fun f => f.letter? = some c)

/-- What the flag does, for a reader. -/
def explanation : Flag → String
  | project => "Project directory"
  | settings => "JSON file with settings"
  | maxDepth => "Files in a chain of imports"
  | maxDeclarationSize => "Size in bytes from which a declaration file is skipped"
  | noPriorityPackages => "Load no packages in advance"
  | json => "Print the report as JSON"
  | verbose => "Log more"
  | quiet => "Log errors only"
  | noColor => "Log without colors"
  | version => "Print version"
  | help => "Print help"

/-- The flag as it is written, with the name of its value. -/
def usage (f : Flag) : Text :=
  (match f.letter? with
    | some c => ['-', c, ',', ' ']
    | none => "    ".toList)
    ++ "--".toList ++ f.name.toList
    ++ (match f.valueName? with
      | some value => " <".toList ++ value.toList ++ ['>']
      | none => [])

end Flag

end SourceClosure
