import SourceClosure.Proofs.Specifier.Package

/-!
# Names of stub directories

A scoped package and its stub directory are named by each other, with two low lines in the one name
where the other has its slash. From the directory to the package and back nothing is lost. From the
package to the directory and back the scope is lost if two low lines come earlier in the directory's
name, which happens exactly if the scope has two in a row or ends in one
(`packageOfStub_stubName_iff`).
-/

namespace SourceClosure

namespace Specifier

/-! ## From a directory to its package -/

/-- No two stub directories are for one package. -/
theorem eq_of_packageOfStub_eq {stub stub' : Text} (h : '/' ∉ stub) (h' : '/' ∉ stub')
    (heq : packageOfStub stub = packageOfStub stub') : stub = stub' := by
  calc
    stub = stubName (packageOfStub stub) := (stubName_packageOfStub h).symm
    _ = stubName (packageOfStub stub') := by rw [heq]
    _ = stub' := stubName_packageOfStub h'

/-! ## From a package to its directory -/

/-- Behind the scope one name has a slash where the other still has a low line. -/
theorem stub_ne_inScope (scope name rest : Text) :
    scope ++ stubSeparator ++ rest ≠ '@' :: scope ++ '/' :: name := by
  intro h
  have hcut : (scope ++ ['_']) ++ '_' :: rest = ('@' :: scope) ++ '/' :: name := by
    simpa [stubSeparator] using h
  have hrest := (List.append_inj hcut (by simp)).2
  simp at hrest

/-- The scope is found again only if the directory's name is split behind it. -/
theorem exists_splitOnceAt_of_packageOfStub {scope name : Text} (hscope : '/' ∉ scope)
    (h : packageOfStub (scope ++ stubSeparator ++ name) = '@' :: scope ++ '/' :: name) :
    ∃ rest, Text.splitOnceAt stubSeparator (scope ++ stubSeparator ++ name) =
      some (scope, rest) := by
  unfold packageOfStub at h
  split at h
  · next scope' name' hsplit =>
    split at h
    · exact absurd h (stub_ne_inScope scope name name)
    · have hstub := Text.eq_append_of_splitOnceAt hsplit
      refine ⟨name', ?_⟩
      rw [hsplit]
      rw [List.cons_append, List.cons_append, List.cons.injEq] at h
      rcases List.append_eq_append_iff.1 h.2 with ⟨t, rfl, ht⟩ | ⟨t, rfl, ht⟩
      · cases t with
        | nil => simp
        | cons c t =>
          -- The slash that was put in would lie in the scope.
          obtain rfl : '/' = c := by simpa using And.left (by simpa using ht)
          simp at hscope
      · cases t with
        | nil => simp
        | cons c t =>
          -- The slash of the package would lie in the directory's name, behind the scope.
          obtain rfl : '/' = c := by simpa using And.left (by simpa using ht)
          simp [stubSeparator] at hstub
  · exact absurd h (stub_ne_inScope scope name name)

theorem packageOfStub_stubName_iff {scope name : Text} (hscope : scope ≠ []) (hname : name ≠ [])
    (hslash : '/' ∉ scope) :
    packageOfStub (stubName ('@' :: scope ++ '/' :: name)) = '@' :: scope ++ '/' :: name ↔
      ¬ stubSeparator <:+: scope ++ ['_'] := by
  have hsep : stubSeparator ≠ [] := by decide
  rw [stubName_inScope hslash]
  constructor
  · intro h
    obtain ⟨rest, hsplit⟩ := exists_splitOnceAt_of_packageOfStub hslash h
    exact Text.not_infix_of_splitOnceAt hsep hsplit
  · intro h
    unfold packageOfStub
    rw [Text.splitOnceAt_append hsep h]
    simp [hscope, hname]

theorem infix_append_low_iff (scope : Text) :
    stubSeparator <:+: scope ++ ['_'] ↔
      stubSeparator <:+: scope ∨ scope.getLast? = some '_' := by
  have hlast : stubSeparator <:+ scope ++ ['_'] ↔ scope.getLast? = some '_' := by
    rw [List.getLast?_eq_some_iff]
    constructor
    · rintro ⟨t, ht⟩
      have hcut : (t ++ ['_']) ++ ['_'] = scope ++ ['_'] := by simpa [stubSeparator] using ht
      exact ⟨t, (List.append_cancel_right hcut).symm⟩
    · rintro ⟨t, rfl⟩
      exact ⟨t, by simp [stubSeparator]⟩
  rw [List.infix_concat_iff, hlast, or_comm]

/-! ## Both ways -/

/-- The name of a stub directory is found again from its package, so no two directories are for one
package. The name of a scoped package is found again from its directory exactly if the scope has no
two low lines in a row and does not end in one. -/
theorem stub_names_invert :
    (∀ stub : Text, '/' ∉ stub → stubName (packageOfStub stub) = stub) ∧
      (∀ stub stub' : Text, '/' ∉ stub → '/' ∉ stub' →
        packageOfStub stub = packageOfStub stub' → stub = stub') ∧
      ∀ scope name : Text, scope ≠ [] → name ≠ [] → '/' ∉ scope →
        (packageOfStub (stubName ('@' :: scope ++ '/' :: name)) = '@' :: scope ++ '/' :: name ↔
          ¬ "__".toList <:+: scope ++ ['_']) ∧
        ("__".toList <:+: scope ++ ['_'] ↔
          "__".toList <:+: scope ∨ scope.getLast? = some '_') := by
  refine ⟨fun stub h => stubName_packageOfStub h,
    fun stub stub' h h' heq => eq_of_packageOfStub_eq h h' heq, ?_⟩
  intro scope name hscope hname hslash
  exact ⟨packageOfStub_stubName_iff hscope hname hslash, infix_append_low_iff scope⟩

/-- The directory of `@a_/b` is taken for that of `@a/_b`. -/
theorem stub_names_invert_babel :
    ('/' ∉ "babel__core".toList ∧
      stubName (packageOfStub "babel__core".toList) = "babel__core".toList) ∧
    packageOfStub (stubName "@babel/core".toList) = "@babel/core".toList ∧
    packageOfStub (stubName "@a_/b".toList) ≠ "@a_/b".toList := by
  have hslash : '/' ∉ "babel__core".toList := by decide
  obtain ⟨hstub, -, hscoped⟩ := stub_names_invert
  have hbabel := (hscoped "babel".toList "core".toList (by decide) (by decide) (by decide)).1
  have hlow := (hscoped "a_".toList "b".toList (by decide) (by decide) (by decide)).1
  refine ⟨⟨hslash, hstub _ hslash⟩, hbabel.2 (by decide), fun h => hlow.1 h ?_⟩
  decide

end Specifier

end SourceClosure
