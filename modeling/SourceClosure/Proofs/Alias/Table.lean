import SourceClosure.Alias.Table
import SourceClosure.Proofs.Json.Writing

/-!
# Alias tables in JSON

A table that is written is read back as it was, whatever texts are in it, and every table that is read
has the members of an object for its entries, in order and with their repetitions, where a single
string stands for a list of one target (`AliasTable.json_form`).
-/

namespace SourceClosure

/-- The entry that a member of an object stands for. -/
def AliasEntry.ofMember (member : Text × Json.OneOrMany) : AliasEntry :=
  ⟨member.1, member.2.toList⟩

namespace AliasTable

theorem ofList_members (members : List (Text × Json.OneOrMany)) :
    ofList (members.map (fun (pattern, targets) => (pattern, targets.toList))) =
      ⟨members.map AliasEntry.ofMember⟩ := by
  rw [ofList, List.map_map]
  rfl

/-- A table is read from the objects whose members are its entries. -/
theorem parse_eq_ok_iff {t : Text} {table : AliasTable} :
    parse t = .ok table ↔ ∃ members, Json.IsObject Json.OneOrMany.IsWritten members t ∧
      table.entries = members.map AliasEntry.ofMember := by
  have hvalue : Json.Reads (Json.readOneOrMany (Json.maxNesting - 1)) id Json.OneOrMany.IsWritten :=
    Json.reads_readOneOrMany 125
  rw [parse, read, Json.readAll_map_eq_ok_iff]
  refine exists_congr (fun members => ?_)
  rw [Json.readAll_readTable_eq_ok_iff hvalue, ofList_members]
  exact and_congr_right (fun _ => ⟨fun h => by rw [← h], fun h => by rw [← h]⟩)

/-- What is written for a table is an object whose members are the entries. -/
theorem isObject_serialize (table : AliasTable) :
    Json.IsObject Json.OneOrMany.IsWritten
      (table.entries.map (fun e => (e.pattern, .many e.targets))) table.serialize := by
  let write (m : Text × Json.OneOrMany) : Text :=
    Json.quote m.1 ++ ':' :: (Json.Value.list (m.2.toList.map .string)).compact
  have hmember : ∀ m ∈ table.entries.map (fun e => (e.pattern, Json.OneOrMany.many e.targets)),
      Json.IsMember Json.OneOrMany.IsWritten m (write m) := by
    intro m hm
    obtain ⟨e, -, rfl⟩ := List.mem_map.1 hm
    exact ⟨_, [], [], _, Json.isString_quote e.pattern, Json.isSpacing_nil, Json.isSpacing_nil,
      Json.isWritten_compact e.targets, rfl⟩
  refine ⟨[], _, [], Json.isSpacing_nil, Json.items_intercalate hmember, Json.isSpacing_nil, ?_⟩
  rw [serialize, toValue, Json.Value.compact, Json.Value.compactMembers_eq_intercalate]
  simp [List.map_map, Function.comp_def, write, Json.OneOrMany.toList]

/-- A table is what is read from what is written for it, and whatever table is read has the members of
the object for its entries, in the order of the text and with their repetitions. -/
theorem json_form :
    (∀ table : AliasTable, parse table.serialize = .ok table) ∧ ∀ t table, parse t = .ok table ↔
      ∃ members, Json.IsObject Json.OneOrMany.IsWritten members t ∧
        table.entries = members.map AliasEntry.ofMember := by
  refine ⟨fun table => parse_eq_ok_iff.2 ⟨_, isObject_serialize table, ?_⟩,
    fun t table => parse_eq_ok_iff⟩
  simp [Function.comp_def, AliasEntry.ofMember, Json.OneOrMany.toList]

end AliasTable

end SourceClosure
