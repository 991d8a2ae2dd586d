import SourceClosure.Specifier.Basic
import SourceClosure.Proofs.Path.Below
import SourceClosure.Proofs.Text.Cutting

/-!
# Names of packages

The name of a stub directory tells which package it is for, and that package's stubs are looked for
under the same name (`stubName_packageOfStub`), so the two ways to spell a scoped package never part.
The name of the package that an external specifier belongs to has one segment, or two if it has a
scope (`isWritten_packageName`). Joined onto a directory such a name leads strictly below it, unless a
backslash hides further segments in it or a scope is followed by `..`.
-/

namespace SourceClosure

namespace Specifier

/-! ## Stub directories -/

theorem stubName_of_not_mem {package : Text} (h : '/' ∉ package) : stubName package = package := by
  unfold stubName
  split
  · rw [Text.splitOnce_of_not_mem (fun hmem => h (List.mem_cons_of_mem _ hmem))]
  · rfl

theorem stubName_inScope {scope : Text} (h : '/' ∉ scope) (name : Text) :
    stubName ('@' :: scope ++ '/' :: name) = scope ++ stubSeparator ++ name := by
  rw [List.cons_append, stubName, Text.splitOnce_append h]

/-- The stubs of the package that a directory is for are looked for in that directory. -/
theorem stubName_packageOfStub {stub : Text} (h : '/' ∉ stub) :
    stubName (packageOfStub stub) = stub := by
  have hself : stubName stub = stub := stubName_of_not_mem h
  unfold packageOfStub
  split
  · next scope name hsplit =>
    split
    · exact hself
    · have hstub := Text.eq_append_of_splitOnceAt hsplit
      have hscope : '/' ∉ scope := by
        intro hmem
        exact h (hstub ▸ List.mem_append_left _ (List.mem_append_left _ hmem))
      rw [stubName_inScope hscope]
      exact hstub.symm
  · exact hself

/-! ## Names in specifiers -/

/-- The ways in which the name of a package is written: one segment, or a scope and a segment. -/
inductive IsWritten : Text → Prop where
  | plain {name : Text} : '/' ∉ name → name ≠ [] → name ≠ Path.here → name ≠ Path.up →
      IsWritten name
  | inScope {scope name : Text} : '/' ∉ scope → '/' ∉ name →
      IsWritten ('@' :: scope ++ '/' :: name)

theorem external_iff {aliases : AliasResolver} {s : Text} :
    kind aliases s = .external ↔
      isRelative s = false ∧ s.head? ≠ some '/' ∧ aliases.covers s = false := by
  unfold kind
  cases isRelative s <;> cases aliases.covers s <;> simp

theorem isRelative_of_segment {segment : Text} (h : segment = Path.here ∨ segment = Path.up)
    (rest : Text) : isRelative (segment ++ '/' :: rest) = true := by
  rcases h with rfl | rfl <;> simp [isRelative, Path.here, Path.up, List.isPrefixOf]

/-- The package that an external specifier belongs to, if there is one, is written in one of these
ways. -/
theorem isWritten_packageName {aliases : AliasResolver} {s : Text}
    (h : kind aliases s = .external) (hne : packageName s ≠ []) : IsWritten (packageName s) := by
  obtain ⟨hrelative, hroot, -⟩ := external_iff.1 h
  unfold packageName at hne ⊢
  split at hne
  · next hnode =>
    rw [if_pos hnode]
    exact .plain (by decide) (by decide) (by decide) (by decide)
  · next hnode =>
    rw [if_neg hnode]
    unfold splitName at hne ⊢
    cases hsplit : Text.splitOnce '/' s with
    | none =>
      rw [hsplit] at hne
      refine .plain (Text.not_mem_of_splitOnce hsplit) hne ?_ ?_
      · rintro rfl
        simp [isRelative] at hrelative
      · rintro rfl
        simp [isRelative] at hrelative
    | some parts =>
      obtain ⟨first, rest⟩ := parts
      obtain ⟨rfl, hfirst⟩ := Text.splitOnce_spec hsplit
      have hnonempty : first ≠ [] := by
        rintro rfl
        exact hroot rfl
      dsimp only
      split
      · next hscope =>
        obtain ⟨c, scope, rfl⟩ := List.exists_cons_of_ne_nil hnonempty
        obtain rfl : c = '@' := by simpa using hscope
        have hscope : '/' ∉ scope := fun hmem => hfirst (List.mem_cons_of_mem _ hmem)
        cases hsplit' : Text.splitOnce '/' rest with
        | none => exact .inScope hscope (Text.not_mem_of_splitOnce hsplit')
        | some parts' => exact .inScope hscope (Text.splitOnce_spec hsplit').2
      · refine .plain hfirst hnonempty ?_ ?_
        · rintro rfl
          rw [isRelative_of_segment (.inl rfl)] at hrelative
          cases hrelative
        · rintro rfl
          rw [isRelative_of_segment (.inr rfl)] at hrelative
          cases hrelative

/-- Of the external specifiers only the empty one belongs to a package without a name. -/
theorem packageName_ne_nil {aliases : AliasResolver} {s : Text} (h : kind aliases s = .external)
    (hne : s ≠ []) : packageName s ≠ [] := by
  unfold packageName splitName
  split
  · decide
  cases hsplit : Text.splitOnce '/' s with
  | none => exact hne
  | some parts =>
    obtain ⟨first, rest⟩ := parts
    obtain ⟨rfl, -⟩ := Text.splitOnce_spec hsplit
    have hfirst : first ≠ [] := by
      rintro rfl
      exact (external_iff.1 h).2.1 rfl
    dsimp only
    split
    · cases Text.splitOnce '/' rest with
      | none => exact hne
      | some parts => simp
    · exact hfirst

/-! ## Directories of packages -/

theorem isName_scope {scope : Text} (hslash : '/' ∉ scope) (hback : '\\' ∉ scope) :
    Path.IsName ('@' :: scope) where
  ne_nil := List.cons_ne_nil _ _
  ne_here := by simp [Path.here]
  ne_up := by simp [Path.up]
  slash := by simp [hslash]
  backslash := by simp [hback]

theorem not_isRooted_scope (rest : Text) : Path.isRooted ('@' :: rest) = false := by
  unfold Path.isRooted
  split
  · next heq =>
    cases heq
    simp [Path.isSeparator]
  · next heq =>
    cases heq
    rfl
  · rfl

/-- A package whose name is written without backslashes and without `..` behind its scope lies
strictly below the directory that it is looked for in. -/
theorem IsWritten.below_join {name : Text} (h : IsWritten name) (hback : '\\' ∉ name)
    (hup : ¬ "/..".toList <:+ name) (base : Text) : Path.Below base (Path.join base name) := by
  cases h with
  | plain hslash hne hhere hup => exact Path.below_join ⟨hne, hhere, hup, hslash, hback⟩ base
  | @inScope scope name hscope hname =>
    obtain ⟨hscopeBack, hnameBack⟩ : '\\' ∉ scope ∧ '\\' ∉ name := by simpa using hback
    have hrooted : Path.isRooted ('@' :: scope ++ '/' :: name) = false := not_isRooted_scope _
    have hsegments : Path.segments (Path.join base ('@' :: scope ++ '/' :: name)) =
        (Path.pushSegment (('@' :: scope) :: Path.walk [] base) name).reverse := by
      rw [Path.segments_join hrooted, Path.walk_append_slash,
        Path.walk_name (isName_scope hscope hscopeBack), Path.walk_segment hname hnameBack]
    have hnotUp : name ≠ Path.up := by
      rintro rfl
      exact hup ⟨'@' :: scope, rfl⟩
    unfold Path.pushSegment at hsegments
    rw [if_neg hnotUp] at hsegments
    split at hsegments
    · refine Path.below_iff.2 ⟨['@' :: scope], List.cons_ne_nil _ _, ?_⟩
      rw [hsegments, List.reverse_cons, Path.segments_eq_walk]
    · refine Path.below_iff.2 ⟨['@' :: scope, name], List.cons_ne_nil _ _, ?_⟩
      rw [hsegments, List.reverse_cons, List.reverse_cons, Path.segments_eq_walk]
      simp

/-- The name of a package's stub directory names something. -/
theorem IsWritten.isName_stubName {name : Text} (h : IsWritten name) (hback : '\\' ∉ name) :
    Path.IsName (stubName name) := by
  cases h with
  | plain hslash hne hhere hup =>
    rw [stubName_of_not_mem hslash]
    exact ⟨hne, hhere, hup, hslash, hback⟩
  | @inScope scope name hscope hname =>
    obtain ⟨hscopeBack, hnameBack⟩ : '\\' ∉ scope ∧ '\\' ∉ name := by simpa using hback
    have hmem : '_' ∈ scope ++ stubSeparator ++ name := by simp [stubSeparator]
    rw [stubName_inScope hscope]
    refine ⟨?_, ?_, ?_, by simp [stubSeparator, hscope, hname],
      by simp [stubSeparator, hscopeBack, hnameBack]⟩
    all_goals
      intro heq
      rw [heq] at hmem
      exact absurd hmem (by decide)

end Specifier

end SourceClosure
