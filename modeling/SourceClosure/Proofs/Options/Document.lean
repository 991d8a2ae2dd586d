import SourceClosure.Options.Document
import SourceClosure.Proofs.Json.Shape
import SourceClosure.Proofs.Jsonc.Layout

/-!
# The layout of a document does not matter

A configuration document may be laid out in any way that relaxed JSON allows: spacing and comments
between its tokens, and a comma before the closing bracket of a list or object that has parts. The
document that is read is the one that the plain text holds, and where the plain text is refused,
the relaxed one is refused for the same reason (`Document.parse_of_layout`). The readers of options
go by tokens, and the tokens of a relaxed text without its additional commas are those of the plain
one.
-/

namespace SourceClosure

open Json

/-! ## Readers of options -/

theorem AliasTable.steady_read (room : Nat) : Steady (AliasTable.read room) :=
  (steady_readTable (steady_readOneOrMany (room - 1))).map _

namespace RawOptions

theorem isSteady_textField (name : String) (set : RawOptions → Option Text → RawOptions) :
    (textField name set).IsSteady :=
  isSteady_of (steady_readOptional (steady_readScalar _)) set

theorem isSteady_switchField (name : String) (set : RawOptions → Option Bool → RawOptions) :
    (switchField name set).IsSteady :=
  isSteady_of (steady_readOptional (steady_readScalar _)) set

theorem isSteady_fields (room : Nat) : ∀ f ∈ fields room, f.IsSteady := by
  simp only [fields, List.forall_mem_cons, isSteady_textField, isSteady_switchField, true_and]
  refine ⟨isSteady_of (steady_readOptional (AliasTable.steady_read room)) _, ?_, ?_⟩
  · exact isSteady_of (steady_readOptional (steady_readList (steady_readScalar _))) _
  · exact fun f hf => nomatch hf

theorem steady_read (room : Nat) : Steady (RawOptions.read room) :=
  steady_readRecord (isSteady_fields (room - 1)) false {}

end RawOptions

/-! ## Documents -/

namespace Document

theorem isSteady_fields (room : Nat) : ∀ f ∈ fields room, f.IsSteady := by
  simp only [fields, List.forall_mem_cons]
  refine ⟨isSteady_of (steady_readOptional (RawOptions.steady_read room)) _, ?_, ?_⟩
  · exact isSteady_of (steady_readOptional (steady_readOneOrMany room)) _
  · exact fun f hf => nomatch hf

theorem steady_read : Steady Document.read :=
  steady_readRecord (isSteady_fields _) false {}

/-- Let `d` be strict JSON of some form, and `t` a text with the same tokens, one more comma behind
the parts of any list or object that the form says, and any spacing and comments in between. Then
`d` is its own strict form, the strict form of `t` has the tokens of `d` with nothing but spacing in
between, and both are read as the same document or refused for the same reason. -/
theorem parse_of_layout (f : Form .value) {d t : Text} (hd : Spaced (f.tokens false) d)
    (ht : Layout Jsonc.IsFiller Jsonc.IsLastFiller (f.tokens true) t) :
    Jsonc.toStrict d = d ∧ Spaced (f.tokens false) (Jsonc.toStrict t) ∧ parse t = parse d := by
  have hchain := f.row_tokens.chain
  have hplain := Jsonc.toStrict_of_spaced hchain hd
  have hstrict := Jsonc.spaced_toStrict (Jsonc.sheds_tokens f) hchain ht
  refine ⟨hplain, hstrict, ?_⟩
  rw [parse, parse, hplain]
  exact readAll_congr steady_read hchain hstrict hd

/-- An object with one member `extends`, and one more comma behind it. -/
def extendingForm (name : Text) (h : IsQuoted name) : Form .value :=
  .full .object (.last (.member "extends".toList
    (isQuoted_of_forall (List.all_iff_forall_prop.1 (by decide))) (.string name h))) true

/-- Comments that hold brackets and a quotation mark, and a comma that a comment parts from the
bracket behind it. -/
theorem parse_relaxed_extending :
    parse ("\x7b // \"]\n" ++ "\"extends\" : /* ,\x7d */\"b\" , /* **/ \x7d// end").toList =
      .ok { bases := some (.one "b".toList) } := by
  have hname : IsQuoted "b".toList :=
    isQuoted_of_forall (List.all_iff_forall_prop.1 (by decide))
  have hd : Spaced ((extendingForm _ hname).tokens false) "\x7b\"extends\":\"b\"\x7d".toList := by
    refine ⟨((extendingForm _ hname).tokens false).map (Piece.mk []), [], rfl, ?_, ?_, rfl⟩
    · exact fun p hp c hc => by obtain ⟨a, -, rfl⟩ := List.mem_map.1 hp; cases hc
    · simp [IsSpacing]
  have ht : Layout Jsonc.IsFiller Jsonc.IsLastFiller ((extendingForm _ hname).tokens true)
      ("\x7b // \"]\n" ++ "\"extends\" : /* ,\x7d */\"b\" , /* **/ \x7d// end").toList := by
    have hline : Jsonc.IsFiller " // \"]\n".toList :=
      .space rfl (@Jsonc.IsFiller.line " \"]".toList [] (by decide) .nil)
    have hblock : Jsonc.IsFiller " /* ,\x7d */".toList :=
      .space rfl (@Jsonc.IsFiller.block " ,\x7d ".toList [] (by decide) .nil)
    have hblanks : Jsonc.IsFiller " /* **/ ".toList :=
      .space rfl (@Jsonc.IsFiller.block " *".toList [' '] (by decide) (.space rfl .nil))
    have hblank : Jsonc.IsFiller [' '] := .space rfl .nil
    have hend : Jsonc.IsLastFiller "// end".toList :=
      @Jsonc.IsLastFiller.line [] " end".toList .nil (by decide)
    refine ⟨[⟨[], .opening .object⟩, ⟨" // \"]\n".toList, .string _ _⟩, ⟨[' '], .colon⟩,
      ⟨" /* ,\x7d */".toList, .string _ hname⟩, ⟨[' '], .comma⟩,
      ⟨" /* **/ ".toList, .closing .object⟩], "// end".toList, rfl, ?_, hend, rfl⟩
    simp only [List.forall_mem_cons]
    exact ⟨.nil, hline, hblank, hblock, hblank, hblanks, List.forall_mem_nil _⟩
  rw [(parse_of_layout _ hd ht).2.2]
  decide +kernel

end Document

end SourceClosure
