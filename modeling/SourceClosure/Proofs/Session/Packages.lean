import SourceClosure.Proofs.Session.Feeding
import SourceClosure.Proofs.Session.Stray

/-!
# What a package brings in

Which files belong to a package depends on the project and on the type roots in force, not on what a
session did before. This module says what they are, without a session (`Project.packageFiles`), and
that loading a package feeds those of them that the corpus lacks, in their order and nothing else
(`brings_loadFresh`). What was fed before only decides which of them are left to be fed (`fresh`).
-/

namespace SourceClosure

/-! ## The files of a package -/

namespace Project

/-- The declaration file at a path as it is fed, if it can be read and is not too large. -/
def declarationAt? (p : Project) (path : Text) : Option CorpusFile :=
  match p.files.read path with
  | .error _ => none
  | .ok content =>
    if p.settings.maxDeclarationSize ≤ Text.byteLength content then none
    else some ⟨Path.toProject path, content⟩

/-- What an entry of a directory holds. `deeper` says what a directory below does. -/
def foundAt (p : Project) (deeper : Text → List CorpusFile) (directory : Text) (e : Entry) :
    List CorpusFile :=
  let path := Path.join directory e.name
  if e.name.head? = some '.' then []
  else if e.isFolder then
    if p.settings.isDenied e.name then [] else deeper path
  else if Path.isDeclaration e.name then (p.declarationAt? path).toList
  else []

/-- What the entries of a directory hold. -/
def foundIn (p : Project) (deeper : Text → List CorpusFile) (directory : Text) :
    List CorpusFile :=
  match p.files.list directory with
  | .error _ => []
  | .ok entries => entries.flatMap (p.foundAt deeper directory)

/-- The declaration files in a directory and at most `depth` levels below it. -/
def found (p : Project) : (depth : Nat) → Text → List CorpusFile
  | 0 => p.foundIn (fun _ => [])
  | depth + 1 => p.foundIn (p.found depth)

/-- The file at a path as it is fed, if it is there and can be read. -/
def fileAt? (p : Project) (path : Text) : Option CorpusFile :=
  if p.files.present path then
    (p.files.read path).toOption.map (fun content => ⟨Path.toProject path, content⟩)
  else none

/-- The directories that may hold the stubs of a package, one for each type root. -/
def stubFolders (roots : List Text) (package : Text) : List Text :=
  roots.map (fun root => Path.join root (Specifier.stubName package))

/-- The files of a package that are in its own directory, and the one that its manifest names. -/
def folderFiles (p : Project) (directory : Text) : List CorpusFile :=
  (p.fileAt? (Session.entryPath directory (p.manifestAt directory))).toList ++
    p.found p.settings.packageDepth (Path.toProject directory)

/-- The files that loading a package feeds, if none of them was fed before. -/
def packageFiles (p : Project) (roots : List Text) (package : Text) : List CorpusFile :=
  match (stubFolders roots package).find? p.files.present with
  | some directory => p.found p.settings.typeStubDepth (Path.toProject directory)
  | none =>
    if p.files.present (p.folderOf package) then p.folderFiles (p.folderOf package) else []

variable {p : Project}

theorem declarationAt?_eq_some_iff {path : Text} {f : CorpusFile} :
    p.declarationAt? path = some f ↔ ∃ content, p.files.read path = .ok content ∧
      Text.byteLength content < p.settings.maxDeclarationSize ∧
      f = ⟨Path.toProject path, content⟩ := by
  unfold declarationAt?
  cases p.files.read path with
  | error _ => simp
  | ok content =>
    by_cases hsize : p.settings.maxDeclarationSize ≤ Text.byteLength content
    · simp [hsize, Nat.not_lt.2 hsize]
    · simp [hsize, Nat.lt_of_not_le hsize, eq_comm]

theorem fileAt?_eq_some_iff {path : Text} {f : CorpusFile} :
    p.fileAt? path = some f ↔ p.files.present path = true ∧
      ∃ content, p.files.read path = .ok content ∧ f = ⟨Path.toProject path, content⟩ := by
  unfold fileAt?
  cases p.files.present path with
  | false => simp
  | true => cases p.files.read path <;> simp [Except.toOption, eq_comm]

/-- Where a file that is found comes from: from a directory below, or it is a declaration file. -/
theorem mem_foundIn_iff {deeper : Text → List CorpusFile} {directory : Text} {f : CorpusFile} :
    f ∈ p.foundIn deeper directory ↔ ∃ entries, p.files.list directory = .ok entries ∧
      ∃ e ∈ entries, e.name.head? ≠ some '.' ∧
        (e.isFolder = true ∧ p.settings.isDenied e.name = false ∧
            f ∈ deeper (Path.join directory e.name) ∨
          e.isFolder = false ∧ Path.isDeclaration e.name = true ∧
            p.declarationAt? (Path.join directory e.name) = some f) := by
  have hentry (e : Entry) : f ∈ p.foundAt deeper directory e ↔ e.name.head? ≠ some '.' ∧
      (e.isFolder = true ∧ p.settings.isDenied e.name = false ∧
          f ∈ deeper (Path.join directory e.name) ∨
        e.isFolder = false ∧ Path.isDeclaration e.name = true ∧
          p.declarationAt? (Path.join directory e.name) = some f) := by
    unfold foundAt
    cases e.isFolder <;> cases p.settings.isDenied e.name <;>
      cases Path.isDeclaration e.name <;> simp
  unfold foundIn
  cases p.files.list directory with
  | error _ => simp
  | ok entries => simp [hentry]

theorem mem_found_of_file {directory name : Text} {entries : List Entry} {f : CorpusFile}
    (hlist : p.files.list directory = .ok entries) (hentry : ⟨name, false⟩ ∈ entries)
    (hshown : name.head? ≠ some '.') (hname : Path.isDeclaration name = true)
    (hf : p.declarationAt? (Path.join directory name) = some f) (depth : Nat) :
    f ∈ p.found depth directory := by
  have hin {deeper : Text → List CorpusFile} : f ∈ p.foundIn deeper directory :=
    mem_foundIn_iff.2 ⟨entries, hlist, _, hentry, hshown, .inr ⟨rfl, hname, hf⟩⟩
  cases depth with
  | zero => exact hin
  | succ depth => exact hin

theorem mem_found_of_folder {directory name : Text} {entries : List Entry} {f : CorpusFile}
    {depth : Nat} (hlist : p.files.list directory = .ok entries)
    (hentry : ⟨name, true⟩ ∈ entries) (hshown : name.head? ≠ some '.')
    (hallowed : p.settings.isDenied name = false)
    (hf : f ∈ p.found depth (Path.join directory name)) : f ∈ p.found (depth + 1) directory :=
  mem_foundIn_iff.2 ⟨entries, hlist, _, hentry, hshown, .inl ⟨rfl, hallowed, hf⟩⟩

/-- Where a file of a package comes from: from a stub directory, or else from the directory of the
package or its manifest. -/
theorem mem_packageFiles {roots : List Text} {package : Text} {f : CorpusFile}
    (h : f ∈ p.packageFiles roots package) :
    (∃ directory ∈ stubFolders roots package,
        f ∈ p.found p.settings.typeStubDepth (Path.toProject directory)) ∨
      p.fileAt? (Session.entryPath (p.folderOf package)
        (p.manifestAt (p.folderOf package))) = some f ∨
      f ∈ p.found p.settings.packageDepth (Path.toProject (p.folderOf package)) := by
  unfold packageFiles at h
  split at h
  · next directory hfind => exact .inl ⟨directory, List.mem_of_find?_eq_some hfind, h⟩
  · split at h
    · rw [folderFiles, List.mem_append] at h
      exact .inr (h.imp (by simp) id)
    · cases h

/-- What holds of a file in the directory that lists it, and of a directory if it holds of one that
is listed there, holds of every directory that the file is found from. -/
theorem found_induction {f : CorpusFile} {motive : Text → Prop}
    (file : ∀ directory entries, p.files.list directory = .ok entries → ∀ e ∈ entries,
      Path.isDeclaration e.name = true →
      p.declarationAt? (Path.join directory e.name) = some f → motive directory)
    (folder : ∀ directory entries, p.files.list directory = .ok entries → ∀ e ∈ entries,
      e.name.head? ≠ some '.' → motive (Path.join directory e.name) → motive directory)
    {depth : Nat} {directory : Text} (hf : f ∈ p.found depth directory) : motive directory := by
  have hin {deeper : Text → List CorpusFile} {directory : Text}
      (hdeeper : ∀ path, f ∈ deeper path → motive path)
      (hf : f ∈ p.foundIn deeper directory) : motive directory := by
    obtain ⟨entries, hlist, e, he, hshown, ⟨-, -, hbelow⟩ | ⟨-, hdeclaration, hfile⟩⟩ :=
      mem_foundIn_iff.1 hf
    · exact folder directory entries hlist e he hshown (hdeeper _ hbelow)
    · exact file directory entries hlist e he hdeclaration hfile
  induction depth generalizing directory with
  | zero => exact hin (by simp) hf
  | succ depth ih => exact hin (fun _ => ih) hf

/-! ### Files that were read -/

theorem exists_read_of_mem_found {depth : Nat} {directory : Text} {f : CorpusFile}
    (hf : f ∈ p.found depth directory) :
    ∃ path, p.files.read path = .ok f.content ∧ f.path = Path.toProject path := by
  refine found_induction (motive := fun _ => _) ?_ (fun _ _ _ _ _ _ h => h) hf
  intro directory entries hlist e he hdeclaration hfile
  obtain ⟨content, hread, -, rfl⟩ := declarationAt?_eq_some_iff.1 hfile
  exact ⟨_, hread, rfl⟩

/-- The files of a package are fed as the store reads them, under their project paths. -/
theorem exists_read_of_mem_packageFiles {roots : List Text} {package : Text} {f : CorpusFile}
    (hf : f ∈ p.packageFiles roots package) :
    ∃ path, p.files.read path = .ok f.content ∧ f.path = Path.toProject path := by
  rcases mem_packageFiles hf with ⟨directory, -, hfound⟩ | hentry | hfound
  · exact exists_read_of_mem_found hfound
  · obtain ⟨-, content, hread, rfl⟩ := fileAt?_eq_some_iff.1 hentry
    exact ⟨_, hread, rfl⟩
  · exact exists_read_of_mem_found hfound

end Project

/-- The files of a list are told apart by their paths. -/
def PathsDistinguish (files : List CorpusFile) : Prop :=
  ∀ f ∈ files, ∀ g ∈ files, f.path = g.path → f = g

theorem PathsDistinguish.mono {files files' : List CorpusFile} (h : PathsDistinguish files)
    (hsub : files' ⊆ files) : PathsDistinguish files' :=
  fun f hf g hg => h f (hsub hf) g (hsub hg)

namespace Session

variable {p : Project}

/-! ## What is left to be fed -/

/-- The files of a list whose paths are not in the corpus, the first of each path. -/
def fresh (corpus : List CorpusFile) : List CorpusFile → List CorpusFile
  | [] => []
  | f :: files =>
    if corpus.any (fun g => g.path = f.path) then fresh corpus files
    else f :: fresh (corpus ++ [f]) files

@[simp] theorem fresh_nil (corpus : List CorpusFile) : fresh corpus [] = [] := rfl

theorem fresh_cons (corpus : List CorpusFile) (f : CorpusFile) (files : List CorpusFile) :
    fresh corpus (f :: files) =
      if corpus.any (fun g => g.path = f.path) then fresh corpus files
      else f :: fresh (corpus ++ [f]) files := rfl

theorem fresh_append (corpus files files' : List CorpusFile) :
    fresh corpus (files ++ files') =
      fresh corpus files ++ fresh (corpus ++ fresh corpus files) files' := by
  induction files generalizing corpus with
  | nil => simp
  | cons f files ih =>
    rw [List.cons_append, fresh_cons, fresh_cons]
    split
    · exact ih corpus
    · rw [ih, List.cons_append, List.append_assoc, List.singleton_append]

theorem fresh_subset (corpus files : List CorpusFile) : fresh corpus files ⊆ files := by
  induction files generalizing corpus with
  | nil => simp
  | cons f files ih =>
    rw [fresh_cons]
    split
    · exact List.subset_cons_of_subset f (ih corpus)
    · exact List.cons_subset_cons f (ih _)

/-- Of files that are told apart by their paths, those are fed whose paths are not in the corpus. -/
theorem mem_fresh_iff {corpus files : List CorpusFile}
    (h : PathsDistinguish files) {f : CorpusFile} :
    f ∈ fresh corpus files ↔ f ∈ files ∧ ∀ g ∈ corpus, g.path ≠ f.path := by
  induction files generalizing corpus with
  | nil => simp
  | cons g files ih =>
    have hfiles := h.mono (List.subset_cons_self g files)
    rw [fresh_cons]
    split
    · next hany =>
      obtain ⟨f', hf', hpath⟩ : ∃ f' ∈ corpus, f'.path = g.path := by simpa using hany
      rw [ih hfiles, List.mem_cons]
      refine ⟨And.imp_left .inr, ?_⟩
      rintro ⟨rfl | hf, hnew⟩
      · exact absurd hpath (hnew f' hf')
      · exact ⟨hf, hnew⟩
    · next hany =>
      have hg : ∀ f' ∈ corpus, f'.path ≠ g.path := by simpa using hany
      rw [List.mem_cons, List.mem_cons, ih hfiles]
      constructor
      · rintro (rfl | ⟨hf, hnew⟩)
        · exact ⟨.inl rfl, hg⟩
        · exact ⟨.inr hf, fun f' hf' => hnew f' (List.mem_append_left _ hf')⟩
      · rintro ⟨rfl | hf, hnew⟩
        · exact .inl rfl
        · by_cases hpath : g.path = f.path
          · exact .inl (h f (List.mem_cons_of_mem _ hf) g List.mem_cons_self hpath.symm)
          · refine .inr ⟨hf, fun f' hf' => ?_⟩
            rcases List.mem_append.1 hf' with hf' | hf'
            · exact hnew f' hf'
            · exact List.mem_singleton.1 hf' ▸ hpath

/-- Every path of the list is in the corpus or fed. -/
theorem exists_mem_append_fresh (corpus : List CorpusFile) {files : List CorpusFile}
    {f : CorpusFile} (hf : f ∈ files) :
    ∃ g ∈ corpus ++ fresh corpus files, g.path = f.path := by
  induction files generalizing corpus with
  | nil => cases hf
  | cons g files ih =>
    rw [fresh_cons]
    rcases List.mem_cons.1 hf with rfl | hf
    · split
      · next hany =>
        obtain ⟨f', hf', hpath⟩ : ∃ f' ∈ corpus, f'.path = f.path := by simpa using hany
        exact ⟨f', List.mem_append_left _ hf', hpath⟩
      · exact ⟨f, by simp, rfl⟩
    · split
      · exact ih corpus hf
      · simpa using ih (corpus ++ [g]) hf

/-! ## Feeding a list of files -/

/-- The second session is the first after it was fed the files of a list that were left to be fed,
and put questions to the store. -/
structure Brings (p : Project) (files : List CorpusFile) (s t : Session) : Prop where
  corpus : t.corpus = s.corpus ++ fresh s.corpus files
  sources : t.engine.sources = s.engine.sources ++
    (fresh s.corpus files).map CorpusFile.source
  models : t.engine.models = s.engine.models ++
    ((fresh s.corpus files).filter (fun f => p.isLive f.path)).map CorpusFile.source
  config : t.config = s.config
  loaded : t.loaded = s.loaded
  discovered : t.discovered = s.discovered

namespace Brings

theorem refl (s : Session) : Brings p [] s s := by
  constructor <;> simp

theorem note {files : List CorpusFile} {s t : Session} (h : Brings p files s t) (a : Access) :
    Brings p files s (t.note a) :=
  ⟨h.corpus, h.sources, h.models, h.config, h.loaded, h.discovered⟩

theorem trans {files files' : List CorpusFile} {s t u : Session} (h : Brings p files s t)
    (h' : Brings p files' t u) : Brings p (files ++ files') s u where
  corpus := by rw [h'.corpus, h.corpus, fresh_append, List.append_assoc]
  sources := by
    rw [h'.sources, h.sources, h.corpus, fresh_append, List.map_append, List.append_assoc]
  models := by
    rw [h'.models, h.models, h.corpus, fresh_append, List.filter_append, List.map_append,
      List.append_assoc]
  config := h'.config.trans h.config
  loaded := h'.loaded.trans h.loaded
  discovered := h'.discovered.trans h.discovered

theorem has_of_mem {files : List CorpusFile} {s t : Session} (h : Brings p files s t)
    {f : CorpusFile} (hf : f ∈ files) : t.has f.path = true := by
  rw [has_iff, h.corpus]
  exact exists_mem_append_fresh s.corpus hf

end Brings

theorem brings_note (s : Session) (a : Access) : Brings p [] s (s.note a) :=
  (Brings.refl s).note a

theorem brings_register (path content : Text) (s : Session) :
    Brings p [⟨Path.toProject path, content⟩] s (s.register p path content).2 := by
  cases hhas : s.has (Path.toProject path) with
  | true =>
    have hfresh : fresh s.corpus [⟨Path.toProject path, content⟩] = [] := by
      rw [has] at hhas
      simp [fresh, hhas]
    rw [register_of_has hhas]
    constructor <;> simp [hfresh]
  | false =>
    have hfresh : fresh s.corpus [⟨Path.toProject path, content⟩] =
        [⟨Path.toProject path, content⟩] := by
      rw [has] at hhas
      simp [fresh, hhas]
    rw [register_of_not_has hhas]
    refine ⟨by rw [hfresh], ?_, ?_, rfl, rfl, rfl⟩
    · rw [hfresh]
      dsimp only
      split <;> rfl
    · rw [hfresh]
      cases hlive : p.isLive (Path.toProject path) with
      | true => simp [hlive, Engine.openModel, Engine.addSource, CorpusFile.source]
      | false => simp [hlive, Engine.addSource]

/-! ## Directories -/

theorem brings_crawlFile (path : Text) (c : Crawl) :
    Brings p (p.declarationAt? path).toList c.2 (crawlFile p path c).2 := by
  have hnote := brings_note (p := p) c.2 (.read path)
  unfold crawlFile Project.declarationAt?
  dsimp only
  cases p.files.read path with
  | error _ => exact hnote
  | ok content =>
    dsimp only
    split
    · exact hnote
    · exact hnote.trans (brings_register path content _)

section Enter

variable {enter : Option (Text → Crawl → Crawl)} {deeper : Text → List CorpusFile}
  (henter : ∀ path c, Brings p (deeper path) c.2 (enter.elim c (fun f => f path c)).2)

include henter

theorem brings_crawlEntry (directory : Text) (c : Crawl) (e : Entry) :
    Brings p (p.foundAt deeper directory e) c.2 (crawlEntry p enter directory c e).2 := by
  unfold crawlEntry Project.foundAt
  dsimp only
  split
  · exact .refl c.2
  · split
    · split
      · exact .refl c.2
      · have hbelow := henter (Path.join directory e.name) c
        split
        · exact hbelow
        · exact hbelow
    · split
      · exact brings_crawlFile _ c
      · exact .refl c.2

theorem brings_crawlEntries (directory : Text) (entries : List Entry) (c : Crawl) :
    Brings p (entries.flatMap (p.foundAt deeper directory)) c.2
      (entries.foldl (crawlEntry p enter directory) c).2 := by
  induction entries generalizing c with
  | nil => exact .refl c.2
  | cons e entries ih => exact (brings_crawlEntry henter directory c e).trans (ih _)

theorem brings_crawlFolder (directory : Text) (c : Crawl) :
    Brings p (p.foundIn deeper directory) c.2 (crawlFolder p enter directory c).2 := by
  have hnote := brings_note (p := p) c.2 (.list directory)
  unfold crawlFolder Project.foundIn
  dsimp only
  cases p.files.list directory with
  | error _ => exact hnote
  | ok entries => exact hnote.trans (brings_crawlEntries henter directory entries (c.1, _))

end Enter

theorem brings_crawlWithin (depth : Nat) (path : Text) (c : Crawl) :
    Brings p (p.found depth path) c.2 (crawlWithin p depth path c).2 := by
  induction depth generalizing path c with
  | zero => exact brings_crawlFolder (fun _ c => .refl c.2) path c
  | succ depth ih => exact brings_crawlFolder ih path c

theorem brings_crawl (path : Text) (depth : Nat) (s : Session) :
    Brings p (p.found depth (Path.toProject path)) s (crawl p path depth s).2 :=
  brings_crawlWithin depth _ ({}, s)

/-! ## One package -/

theorem brings_firstPresent (directories : List Text) (s : Session) :
    (firstPresent p directories s).1 = directories.find? p.files.present ∧
      Brings p [] s (firstPresent p directories s).2 := by
  induction directories generalizing s with
  | nil => exact ⟨rfl, .refl s⟩
  | cons d directories ih =>
    unfold firstPresent
    rw [List.find?_cons]
    cases p.files.present d with
    | true => exact ⟨rfl, brings_note s _⟩
    | false =>
      obtain ⟨hfind, hbrings⟩ := ih (s.note (.present d))
      exact ⟨hfind, (brings_note s _).trans hbrings⟩

theorem brings_registerEntry (path : Text) (s : Session) :
    Brings p (p.fileAt? path).toList s (registerEntry p path s) := by
  have hpresent := brings_note (p := p) s (.present path)
  unfold registerEntry Project.fileAt?
  dsimp only
  split
  · have hread := hpresent.note (.read path)
    cases p.files.read path with
    | error _ => exact hread
    | ok content => exact hread.trans (brings_register path content _)
  · exact hpresent

theorem brings_loadFolder (directory : Text) (s : Session) :
    Brings p (p.folderFiles directory) s (loadFolder p directory s).2 := by
  have hmanifest := brings_note (p := p) s (.read (Path.join directory Manifest.fileName))
  have hentry := hmanifest.trans (brings_registerEntry
    (entryPath directory (readManifest p directory s).1) _)
  exact hentry.trans (brings_crawl directory p.settings.packageDepth _)

/-- Loading a package feeds the files of the package that were not fed before. -/
theorem brings_loadFresh (name : Text) (s : Session) :
    Brings p (p.packageFiles s.config.options.typeRoots name) s (loadFresh p name s).2 := by
  obtain ⟨hfind, hfirst⟩ := brings_firstPresent (p := p)
    (Project.stubFolders s.config.options.typeRoots name) s
  unfold Project.packageFiles loadFresh
  dsimp only
  rw [← Project.stubFolders, hfind]
  cases (Project.stubFolders s.config.options.typeRoots name).find? p.files.present with
  | some directory => exact hfirst.trans (brings_crawl directory _ _)
  | none =>
    have hpresent := hfirst.note (.present (p.folderOf name))
    dsimp only
    unfold Project.folderOf at hpresent ⊢
    split
    · exact hpresent.trans (brings_loadFolder _ _)
    · exact hpresent

/-! ## Many packages -/

/-- The session in which a package counts as asked for. -/
def take (name : Text) (s : Session) : Session :=
  { s with loaded := name :: s.loaded, discovered := s.discovered.erase name }

theorem Brings.take {files : List CorpusFile} {s t : Session} (h : Brings p files s t)
    (name : Text) : Brings p files (s.take name) (t.take name) where
  corpus := h.corpus
  sources := h.sources
  models := h.models
  config := h.config
  loaded := by simp only [Session.take, h.loaded]
  discovered := by simp only [Session.take, h.discovered]

theorem loadPackage_of_isLoaded {name : Text} {s : Session} (h : s.isLoaded name = true) :
    loadPackage p name s = (.alreadyLoaded, s) := by
  simp [loadPackage, h]

theorem loadPackage_of_not_isLoaded {name : Text} {s : Session} (h : s.isLoaded name = false) :
    loadPackage p name s = loadFresh p name (s.take name) := by
  simp [loadPackage, h, Session.take]

end Session

end SourceClosure
