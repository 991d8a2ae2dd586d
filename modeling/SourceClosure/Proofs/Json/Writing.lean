import SourceClosure.Json.Printer
import SourceClosure.Proofs.Json.Listed

/-!
# What is written is read

A string is spelled by what is written for it, whatever characters it has (`spells_escape`), and what
is written for the items of a list, with commas between, lists them (`items_intercalate`).
-/

namespace SourceClosure

namespace Json

/-! ## Strings -/

theorem hexValue?_hexDigit {n : Nat} (h : n < 16) : hexValue? (hexDigit n) = some n := by
  decide +revert

/-- A control character is named by four digits. -/
theorem hexUnit?_of_isControl {c : Char} (h : isControl c = true) :
    hexUnit? '0' '0' (hexDigit (c.toNat / 16)) (hexDigit (c.toNat % 16)) = some c.toNat := by
  have hlt : c.toNat < 0x20 := by simpa [isControl] using h
  have hzero : hexValue? '0' = some 0 := rfl
  simp only [hexUnit?, hzero, hexValue?_hexDigit (show c.toNat / 16 < 16 by omega),
    hexValue?_hexDigit (show c.toNat % 16 < 16 by omega)]
  exact congrArg some (by omega)

/-- What is written for a character: a letter behind a backslash, the digits of a control character,
or the character itself. -/
theorem escape_cases (c : Char) :
    (∃ letter, shortEscape? letter = some c ∧ escape c = ['\\', letter]) ∨
      (isControl c = true ∧
        escape c = ['\\', 'u', '0', '0', hexDigit (c.toNat / 16), hexDigit (c.toNat % 16)]) ∨
      c ≠ '"' ∧ c ≠ '\\' ∧ isControl c = false ∧ escape c = [c] := by
  by_cases hshort : c = '"' ∨ c = '\\' ∨ c = '\x08' ∨ c = '\x0c' ∨ c = '\n' ∨ c = '\r' ∨ c = '\t'
  · refine .inl ?_
    rcases hshort with rfl | rfl | rfl | rfl | rfl | rfl | rfl
    · exact ⟨'"', rfl, rfl⟩
    · exact ⟨'\\', rfl, rfl⟩
    · exact ⟨'b', rfl, rfl⟩
    · exact ⟨'f', rfl, rfl⟩
    · exact ⟨'n', rfl, rfl⟩
    · exact ⟨'r', rfl, rfl⟩
    · exact ⟨'t', rfl, rfl⟩
  · simp only [not_or] at hshort
    cases hcontrol : isControl c with
    | true => exact .inr (.inl ⟨rfl, by simp [escape, hshort, hcontrol]⟩)
    | false => exact .inr (.inr ⟨hshort.1, hshort.2.1, rfl, by simp [escape, hshort, hcontrol]⟩)

/-- What is written for a character spells it. -/
theorem Spells.escape_append (c : Char) {body s : Text} (h : Spells body s) :
    Spells (escape c ++ body) (c :: s) := by
  rcases escape_cases c with ⟨letter, hletter, hc⟩ | ⟨hcontrol, hc⟩ | ⟨hquote, hback, hcontrol, hc⟩
  · rw [hc]
    exact .escaped (.short hletter) h
  · have hlt : c.toNat < 0x20 := by simpa [isControl] using hcontrol
    have hunit : Escaped (Char.ofNat c.toNat) _ := .unit (hexUnit?_of_isControl hcontrol)
      (by simp [isTrailing]; omega) (by simp [isLeading]; omega)
    rw [Char.ofNat_toNat] at hunit
    rw [hc]
    exact .escaped hunit h
  · rw [hc]
    exact .plain hquote hback hcontrol h

/-- Every string is spelled by what is written for it. -/
theorem spells_escape (s : Text) : Spells (s.flatMap escape) s := by
  induction s with
  | nil => exact .nil
  | cons c s ih => exact ih.escape_append c

theorem isString_quote (s : Text) : IsString s (quote s) :=
  ⟨s.flatMap escape, spells_escape s, rfl⟩

/-! ## Lists and objects -/

variable {α : Type} {written : α → Text → Prop} {closing : Char}

/-- A comma makes later items of the first ones. -/
theorem Items.comma {a : α} {as : List α} {v : Text} (h : Items written closing true (a :: as) v) :
    Items written closing false (a :: as) (',' :: v) := by
  cases h with
  | @cons _ g w v _ _ hg hw hv =>
    have hseparator : IsSeparator false (',' :: g) := ⟨[], g, isSpacing_nil, hg, rfl⟩
    exact .cons hseparator hw hv

/-- What is written for each item, with commas between and the closing bracket behind, is written for
them all. -/
theorem items_intercalate {write : α → Text} {as : List α} (hwrite : ∀ a ∈ as, written a (write a)) :
    Items written closing true as ([','].intercalate (as.map write) ++ [closing]) := by
  induction as with
  | nil => exact .nil isSpacing_nil
  | cons a as ih =>
    obtain ⟨ha, has⟩ := List.forall_mem_cons.1 hwrite
    have hfirst : IsSeparator true [] := isSpacing_nil
    cases as with
    | nil =>
      simpa [List.intercalate] using Items.cons hfirst ha (.nil isSpacing_nil)
    | cons b as =>
      simpa [List.intercalate] using Items.cons hfirst ha (ih has).comma

theorem Value.compactItems_eq_intercalate (items : List Value) :
    Value.compactItems items = [','].intercalate (items.map Value.compact) := by
  induction items with
  | nil => rfl
  | cons v items ih =>
    cases items with
    | nil => simp [Value.compactItems, List.intercalate]
    | cons v' items =>
      rw [Value.compactItems, ih]
      · simp [List.intercalate]
      · simp

theorem Value.compactMembers_eq_intercalate (members : List (Text × Value)) :
    Value.compactMembers members =
      [','].intercalate (members.map (fun m => quote m.1 ++ ':' :: m.2.compact)) := by
  induction members with
  | nil => rfl
  | cons m members ih =>
    cases members with
    | nil => simp [Value.compactMembers, List.intercalate]
    | cons m' members =>
      rw [Value.compactMembers, ih]
      · simp [List.intercalate]
      · simp

/-- A list of strings as it is written without spacing. -/
theorem isWritten_compact (ss : List Text) :
    (OneOrMany.many ss).IsWritten (Value.list (ss.map Value.string)).compact := by
  have hitems : Items IsString ']' true ss ([','].intercalate (ss.map quote) ++ [']']) :=
    items_intercalate (fun s _ => isString_quote s)
  refine ⟨_, hitems, ?_⟩
  have hcompact : Value.compact ∘ Value.string = quote := by
    funext s
    rw [Function.comp, Value.compact]
  rw [Value.compact, Value.compactItems_eq_intercalate, List.map_map, hcompact]
  rfl

end Json

end SourceClosure
