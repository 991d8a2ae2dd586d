import SourceClosure.Json.Shape
import SourceClosure.Json.Printer

/-!
# Alias tables

An alias table maps patterns of specifiers to lists of target templates. It is an ordered list
of entries: the same pattern may occur twice, and then the first entry shadows the second. In
JSON it is an object whose members are the entries in order; a single target may be written as
a string instead of a list.
-/

namespace SourceClosure

/-- A pattern and its target templates, in order of preference. -/
structure AliasEntry where
  pattern : Text
  targets : List Text
  deriving DecidableEq, Repr

/-- The alias entries in the order in which they are declared. -/
structure AliasTable where
  entries : List AliasEntry
  deriving DecidableEq, Repr

namespace AliasTable

/-- The table without entries. -/
def empty : AliasTable := ⟨[]⟩

/-- The table that a list of patterns with their targets describes. -/
def ofList (pairs : List (Text × List Text)) : AliasTable :=
  ⟨pairs.map (fun (pattern, targets) => ⟨pattern, targets⟩)⟩

/-! ## JSON form -/

/-- A table of at most `room` levels of brackets, its own included. -/
def read (room : Nat) : Json.Reader AliasTable :=
  (fun pairs => ofList (pairs.map (fun (pattern, targets) => (pattern, targets.toList))))
    <$> Json.readTable (Json.readOneOrMany (room - 1))

/-- The table that a text holds. -/
def parse (t : Text) : Except Json.Fault AliasTable :=
  Json.readAll (read Json.maxNesting) t

/-- The table as an object whose members are its entries. -/
def toValue (table : AliasTable) : Json.Value :=
  .object (table.entries.map (fun e => (e.pattern, .list (e.targets.map .string))))

/-- The table written without any spacing. -/
def serialize (table : AliasTable) : Text :=
  table.toValue.compact

end AliasTable

end SourceClosure
