import SourceClosure.Json.Shape

/-!
# Settings

The limits and names that steer a session. They are read from strict JSON, where every setting
may be left out but none may be `null`.
-/

namespace SourceClosure

/-- The limits and names that steer a session. -/
structure Settings where
  /-- How many files a chain of imports may have. -/
  maxSourceDepth : Nat := 10
  /-- The size in bytes from which a declaration file is too large. -/
  maxDeclarationSize : Nat := 512 * 1024
  /-- How many directories deep stub directories are searched. -/
  typeStubDepth : Nat := 3
  /-- How many directories deep packages are searched. -/
  packageDepth : Nat := 2
  /-- The directories that are not searched. -/
  denylist : List Text :=
    ["test", "tests", "__tests__", "example", "examples", "docs", "doc", ".git",
      "node_modules"].map String.toList
  /-- The packages that are loaded before all others. -/
  priorityPackages : List Text :=
    ["react", "react-dom", "react-router-dom", "lucide-react", "@radix-ui/react-slot",
      "class-variance-authority", "clsx", "tailwind-merge"].map String.toList
  /-- The directory that holds the packages. -/
  packageRoot : Text := "node_modules".toList
  deriving DecidableEq, Repr

namespace Settings

/-- The settings in the order of their declaration. -/
def fields : List (Json.Field Settings) :=
  [.of "maxSourceDepth" Json.readNat (fun s v => { s with maxSourceDepth := v }),
    .of "maxDeclarationSize" Json.readNat (fun s v => { s with maxDeclarationSize := v }),
    .of "typeStubDepth" Json.readNat (fun s v => { s with typeStubDepth := v }),
    .of "packageDepth" Json.readNat (fun s v => { s with packageDepth := v }),
    .of "denylist" (Json.readList Json.readString) (fun s v => { s with denylist := v }),
    .of "priorityPackages" (Json.readList Json.readString)
      (fun s v => { s with priorityPackages := v }),
    .of "packageRoot" Json.readString (fun s v => { s with packageRoot := v })]

/-- The settings that a text holds, with defaults for those left out. -/
def parse (t : Text) : Except Json.Fault Settings :=
  Json.readAll (Json.readRecord fields true {}) t

/-- Whether directories of this name are not searched. -/
def isDenied (s : Settings) (name : Text) : Bool :=
  s.denylist.contains name

end Settings

end SourceClosure
