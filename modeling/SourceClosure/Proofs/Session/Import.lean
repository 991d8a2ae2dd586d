import SourceClosure.Session.Sources
import SourceClosure.Store.Tree
import SourceClosure.Proofs.Path.Candidates

/-!
# Imports

What a specifier leads to depends on the files of the project and on the aliases in force, not on
what a session did before. This module says what that is, without a session: the stem that a
specifier stands for, the file that a stem stands for (`Project.readable?`), and the files that a
file imports (`Project.imports`). The loaders are measured against these definitions.
-/

namespace SourceClosure

/-! ## Stores that go by project paths -/

/-- The store tells files apart by their project paths only, and what it reads is a file. -/
structure Store.Lexical (files : Store) : Prop where
  read (path : Text) : files.read (Path.toProject path) = files.read path
  isFile (path : Text) : files.isFile (Path.toProject path) = files.isFile path
  isFile_of_read {path content : Text} :
    files.read path = .ok content → files.isFile path = true

theorem Tree.lexical_store (t : Tree) : t.store.Lexical where
  read path := by simp [store, Tree.read, Path.toProject_toProject]
  isFile path := by simp [store, Tree.isFile, Path.toProject_toProject]
  isFile_of_read {path content} h := by
    simp only [store, Tree.read, Tree.isFile] at h ⊢
    split at h
    · cases h
    · split at h
      · next f hf => rw [hf]; rfl
      · cases h

/-- The project of the files in memory. -/
def Tree.project (t : Tree) (specifiersIn : Text → List Text) (settings : Settings) : Project :=
  ⟨t.store, specifiersIn, settings⟩

/-! ## Resolution -/

/-- The stems that a specifier of a file in a directory may stand for, best first. -/
def Specifier.stems (aliases : AliasResolver) (directory specifier : Text) : List Text :=
  match kind aliases specifier with
  | .relative => [Path.join directory specifier]
  | .aliased => Session.aliasStems aliases specifier
  | .external => []

namespace Project

/-- The first candidate of a stem that is a file. -/
def probed? (p : Project) (stem : Text) : Option Text :=
  (Path.candidates stem).find? p.files.isFile

/-- The file that a stem stands for, if it can be read. -/
def readable? (p : Project) (stem : Text) : Option Text :=
  (p.probed? stem).bind (fun c => (p.files.read c).toOption.map (fun _ => Path.toProject c))

/-- The readable file that a specifier of a file in a directory leads to. -/
def resolve? (p : Project) (aliases : AliasResolver) (directory specifier : Text) :
    Option Text :=
  (Specifier.stems aliases directory specifier).findSome? p.readable?

/-- The readable files that the specifiers of a file lead to, in order. -/
def imports (p : Project) (aliases : AliasResolver) (path : Text) : List Text :=
  match p.files.read path with
  | .error _ => []
  | .ok content =>
    if Session.isScannable path then
      (p.specifiersIn content).filterMap (p.resolve? aliases (Path.directory path))
    else []

/-- The first file imports the second. -/
def Imports (p : Project) (aliases : AliasResolver) (f g : Text) : Prop :=
  g ∈ p.imports aliases f

instance (p : Project) (aliases : AliasResolver) (f g : Text) :
    Decidable (p.Imports aliases f g) :=
  inferInstanceAs (Decidable (g ∈ p.imports aliases f))

variable {p : Project}

theorem readable?_eq_some_iff {stem g : Text} :
    p.readable? stem = some g ↔
      ∃ c content, p.probed? stem = some c ∧ p.files.read c = .ok content ∧
        Path.toProject c = g := by
  unfold readable?
  rw [Option.bind_eq_some_iff]
  constructor
  · rintro ⟨c, hc, h⟩
    cases hread : p.files.read c with
    | error _ => simp [hread, Except.toOption] at h
    | ok content =>
      rw [hread] at h
      exact ⟨c, content, hc, hread, by simpa [Except.toOption] using h⟩
  · rintro ⟨c, content, hc, hread, hg⟩
    exact ⟨c, hc, by simp [hread, Except.toOption, hg]⟩

theorem mem_candidates_of_probed? {stem c : Text} (h : p.probed? stem = some c) :
    c ∈ Path.candidates stem :=
  List.mem_of_find?_eq_some h

theorem namesFile_of_probed? {stem c : Text} (hstem : Path.toProject stem = stem)
    (h : p.probed? stem = some c) : Path.NamesFile c :=
  Path.namesFile_of_mem_candidates hstem (mem_candidates_of_probed? h)

/-- A file with a suffix that can be read is what its project path stands for. -/
theorem readable?_of_read (hp : p.files.Lexical) {path content : Text}
    (hread : p.files.read path = .ok content) (hsuffix : Path.hasSuffix path = true) :
    p.readable? (Path.toProject path) = some (Path.toProject path) := by
  have hfile : p.files.isFile (Path.toProject path) = true := by
    rw [hp.isFile]
    exact hp.isFile_of_read hread
  refine readable?_eq_some_iff.2 ⟨Path.toProject path, content, ?_, ?_, ?_⟩
  · exact Path.find?_candidates_self (Path.toProject_toProject path)
      (Path.hasSuffix_toProject hsuffix) hfile
  · rw [hp.read, hread]
  · exact Path.toProject_toProject path

end Project

/-! ## Stems are project paths -/

namespace Specifier

theorem not_isRooted_of_isRelative {s : Text} (h : isRelative s = true) :
    Path.isRooted s = false ∧ (Path.slashes s).head? ≠ some '/' := by
  have hrest {rest : Text} : Path.isRooted ('.' :: '/' :: rest) = false := by
    cases rest with
    | nil => decide
    | cons c rest => simp [Path.isRooted, Path.isSeparator]
  have hup {rest : Text} : Path.isRooted ('.' :: '.' :: rest) = false := by
    cases rest with
    | nil => decide
    | cons c rest => simp [Path.isRooted, Path.isSeparator]
  unfold isRelative at h
  simp only [Bool.or_eq_true, beq_iff_eq, List.isPrefixOf_iff_prefix] at h
  rcases h with ((rfl | rfl) | ⟨rest, rfl⟩) | ⟨rest, rfl⟩
  · decide
  · decide
  · exact ⟨hrest, by simp [Path.slashes]⟩
  · exact ⟨hup, by simp [Path.slashes]⟩

theorem isRelative_of_kind {aliases : AliasResolver} {s : Text} (h : kind aliases s = .relative) :
    isRelative s = true := by
  unfold kind at h
  split at h
  · assumption
  · split at h <;> cases h

/-- A specifier stands for the same stems in a file as it was found and in its project path. -/
theorem stems_directory_toProject {c : Text} (hc : Path.NamesFile c) (aliases : AliasResolver)
    (s : Text) :
    stems aliases (Path.directory (Path.toProject c)) s = stems aliases (Path.directory c) s := by
  unfold stems
  split
  · next h =>
    obtain ⟨hrooted, hhead⟩ := not_isRooted_of_isRelative (isRelative_of_kind h)
    rw [hc.join_directory hrooted hhead]
  · rfl
  · rfl

end Specifier

theorem Session.toProject_of_mem_aliasStems {aliases : AliasResolver} {s stem : Text}
    (h : stem ∈ aliasStems aliases s) : Path.toProject stem = stem := by
  unfold aliasStems at h
  cases hc : aliases.candidates? s with
  | none =>
    rw [hc, Option.getD_none, List.mem_singleton] at h
    rw [h, Path.toProject_toProject]
  | some stems =>
    rw [hc, Option.getD_some] at h
    unfold AliasResolver.candidates? at hc
    obtain ⟨rule, -, hrule⟩ := List.exists_of_findSome?_eq_some hc
    obtain ⟨captured, -, rfl⟩ := Option.map_eq_some_iff.1 hrule
    obtain ⟨target, -, rfl⟩ := List.mem_map.1 h
    exact Path.toProject_toProject _

/-- The stems of a file's specifiers are project paths. -/
theorem Specifier.toProject_of_mem_stems {c : Text} (hc : Path.NamesFile c)
    {aliases : AliasResolver} {s stem : Text}
    (h : stem ∈ stems aliases (Path.directory c) s) : Path.toProject stem = stem := by
  unfold stems at h
  split at h
  · next hkind =>
    obtain ⟨-, hhead⟩ := not_isRooted_of_isRelative (isRelative_of_kind hkind)
    rw [List.mem_singleton] at h
    rw [h, hc.join_eq_toProject hhead, Path.toProject_toProject]
  · exact Session.toProject_of_mem_aliasStems h
  · cases h

/-! ## The imports of a file -/

/-- The imports of a project path, from the file as it was found. -/
theorem Project.imports_toProject {p : Project} (hp : p.files.Lexical) {c content : Text}
    (hc : Path.NamesFile c) (hread : p.files.read c = .ok content) (aliases : AliasResolver) :
    p.imports aliases (Path.toProject c) =
      if Session.isScannable c then
        (p.specifiersIn content).filterMap (p.resolve? aliases (Path.directory c))
      else [] := by
  have hscannable : Session.isScannable (Path.toProject c) = Session.isScannable c := by
    rw [Session.isScannable, Session.isScannable, hc.ofPath?_toProject]
  have hresolve : p.resolve? aliases (Path.directory (Path.toProject c)) =
      p.resolve? aliases (Path.directory c) := by
    funext s
    rw [resolve?, resolve?, Specifier.stems_directory_toProject hc]
  rw [imports, hp.read, hread, hscannable, hresolve]

end SourceClosure
