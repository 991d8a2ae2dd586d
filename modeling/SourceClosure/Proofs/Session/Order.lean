import SourceClosure.Proofs.Session.Import
import SourceClosure.Proofs.Session.Packages

/-!
# Loading packages in any order

Packages share files: a manifest may name a file of another package, and stub directories may lie
below one another. What a package brings in does not depend on what the corpus holds, and two
packages that bring in the same path bring in the same content, namely what the store reads there.
So only the set of packages that are loaded matters, not their order, and not how often each of them
is asked for (`loadEach_order_independent`).
-/

namespace SourceClosure

/-! ## Packages bring in what the store reads -/

theorem PathsDistinguish.find?_eq_some_iff {files : List CorpusFile} (h : PathsDistinguish files)
    {path : Text} {f : CorpusFile} :
    files.find? (fun g => g.path = path) = some f ↔ f ∈ files ∧ f.path = path := by
  constructor
  · intro hfind
    exact ⟨List.mem_of_find?_eq_some hfind, by simpa using List.find?_some hfind⟩
  · rintro ⟨hf, hpath⟩
    cases hfind : files.find? (fun g => g.path = path) with
    | none => exact absurd hpath (by simpa using List.find?_eq_none.1 hfind f hf)
    | some g =>
      have hg : g.path = path := by simpa using List.find?_some hfind
      rw [h g (List.mem_of_find?_eq_some hfind) f hf (hg.trans hpath.symm)]

/-- A file of a package is what the store reads at its path. -/
theorem Project.read_of_mem_packageFiles {p : Project} (hp : p.files.Lexical) {roots : List Text}
    {package : Text} {f : CorpusFile} (hf : f ∈ p.packageFiles roots package) :
    p.files.read f.path = .ok f.content := by
  obtain ⟨path, hread, hpath⟩ := exists_read_of_mem_packageFiles hf
  rw [hpath, hp.read, hread]

/-- Files that the store reads at their paths are told apart by them. -/
theorem pathsDistinguish_of_read {store : Store} {files : List CorpusFile}
    (h : ∀ f ∈ files, store.read f.path = .ok f.content) : PathsDistinguish files := by
  intro f hf g hg hpath
  have hcontent := h f hf
  rw [hpath, h g hg, Except.ok.injEq] at hcontent
  cases f
  cases g
  simp_all

namespace Session

variable {p : Project}

/-! ## The packages that are asked for -/

/-- The session in which all packages of a list count as asked for. -/
def takeEach (names : List Text) (s : Session) : Session :=
  names.foldl (fun s name => if s.isLoaded name then s else s.take name) s

theorem takeEach_cons (name : Text) (names : List Text) (s : Session) :
    takeEach (name :: names) s =
      takeEach names (if s.isLoaded name then s else s.take name) := rfl

theorem isLoaded_iff {s : Session} {name : Text} : s.isLoaded name = true ↔ name ∈ s.loaded := by
  simp [isLoaded]

theorem mem_loaded_takeEach_iff {names : List Text} {s : Session} {name : Text} :
    name ∈ (takeEach names s).loaded ↔ name ∈ names ∨ name ∈ s.loaded := by
  induction names generalizing s with
  | nil => simp [takeEach]
  | cons first names ih =>
    rw [takeEach_cons, ih]
    split
    · next h =>
      rw [isLoaded_iff] at h
      simp only [List.mem_cons]
      constructor
      · rintro (hname | hname)
        · exact .inl (.inr hname)
        · exact .inr hname
      · rintro ((rfl | hname) | hname)
        · exact .inr h
        · exact .inl hname
        · exact .inr hname
    · simp only [take, List.mem_cons]
      tauto

/-- A package that is asked for waits once less, unless it was asked for before. -/
theorem count_discovered_takeEach (names : List Text) (s : Session) (name : Text) :
    (takeEach names s).discovered.count name =
      s.discovered.count name - if name ∈ names ∧ name ∉ s.loaded then 1 else 0 := by
  induction names generalizing s with
  | nil => simp [takeEach]
  | cons first names ih =>
    rw [takeEach_cons, ih]
    by_cases hfirst : name = first
    · subst hfirst
      split
      · next h =>
        rw [isLoaded_iff] at h
        simp [h]
      · next h =>
        rw [isLoaded_iff] at h
        simp [take, h]
    · split
      · simp [hfirst]
      · simp [take, hfirst]

theorem Brings.takeEach {files : List CorpusFile} {s t : Session} (h : Brings p files s t)
    (names : List Text) : Brings p files (s.takeEach names) (t.takeEach names) := by
  induction names generalizing s t with
  | nil => exact h
  | cons first names ih =>
    have hloaded : t.isLoaded first = s.isLoaded first := by rw [isLoaded, isLoaded, h.loaded]
    rw [takeEach_cons, takeEach_cons, hloaded]
    split
    · exact ih h
    · exact ih (h.take first)

@[simp] theorem takeEach_corpus (names : List Text) (s : Session) :
    (s.takeEach names).corpus = s.corpus := by
  induction names generalizing s with
  | nil => rfl
  | cons first names ih =>
    rw [takeEach_cons, ih]
    split <;> rfl

@[simp] theorem takeEach_engine (names : List Text) (s : Session) :
    (s.takeEach names).engine = s.engine := by
  induction names generalizing s with
  | nil => rfl
  | cons first names ih =>
    rw [takeEach_cons, ih]
    split <;> rfl

/-! ## What loading a list of packages brings in -/

/-- Loading packages feeds the files of those that were not asked for before. -/
theorem exists_brings_loadEach (names : List Text) (s : Session) :
    ∃ files, (∀ f, f ∈ files ↔ ∃ name ∈ names, name ∉ s.loaded ∧
        f ∈ p.packageFiles s.config.options.typeRoots name) ∧
      Brings p files (s.takeEach names) (loadEach p names s) := by
  induction names generalizing s with
  | nil => exact ⟨[], by simp, .refl s⟩
  | cons first names ih =>
    cases hfirst : s.isLoaded first with
    | true =>
      obtain ⟨files, hmem, hbrings⟩ := ih s
      refine ⟨files, fun f => ?_, ?_⟩
      · have hloaded := isLoaded_iff.1 hfirst
        rw [hmem]
        constructor
        · rintro ⟨name, hname, h⟩
          exact ⟨name, List.mem_cons_of_mem _ hname, h⟩
        · rintro ⟨name, hname, hnew, h⟩
          rcases List.mem_cons.1 hname with rfl | hname
          · exact absurd hloaded hnew
          · exact ⟨name, hname, hnew, h⟩
      · rwa [takeEach_cons, if_pos hfirst, loadEach, List.foldl_cons,
          loadPackage_of_isLoaded hfirst]
    | false =>
      have hload := brings_loadFresh (p := p) first (s.take first)
      rw [← loadPackage_of_not_isLoaded hfirst] at hload
      obtain ⟨files, hmem, hbrings⟩ := ih (loadPackage p first s).2
      have htake : takeEach (first :: names) s = takeEach names (s.take first) := by
        simp [takeEach_cons, hfirst]
      refine ⟨_, fun f => ?_, htake ▸ (hload.takeEach names).trans hbrings⟩
      have hnew : first ∉ s.loaded := by simpa [isLoaded] using hfirst
      rw [List.mem_append, hmem, hload.config, hload.loaded]
      simp only [take, List.mem_cons, not_or]
      constructor
      · rintro (h | ⟨name, hname, ⟨-, hfresh⟩, h⟩)
        · exact ⟨first, .inl rfl, hnew, h⟩
        · exact ⟨name, .inr hname, hfresh, h⟩
      · rintro ⟨name, rfl | hname, hfresh, h⟩
        · exact .inl h
        · by_cases heq : name = first
          · exact .inl (heq ▸ h)
          · exact .inr ⟨name, hname, ⟨heq, hfresh⟩, h⟩

/-! ## Feeding the same files -/

/-- The sessions hold the same files with the same contents, fed the engine the same, and know of
the same packages. -/
structure Agree (s t : Session) : Prop where
  file (path : Text) : s.file? path = t.file? path
  sources (f : Source) : f ∈ s.engine.sources ↔ f ∈ t.engine.sources
  models (f : Source) : f ∈ s.engine.models ↔ f ∈ t.engine.models
  loaded (name : Text) : name ∈ s.loaded ↔ name ∈ t.loaded
  discovered (name : Text) : name ∈ s.discovered ↔ name ∈ t.discovered

/-- Whichever order files that are told apart by their paths are fed in, and however often, the
corpus, the sources and the models come out alike. -/
theorem Brings.agree {files files' : List CorpusFile} {s t u v : Session}
    (h : Brings p files s u) (h' : Brings p files' t v) (hcorpus : s.corpus = t.corpus)
    (hengine : s.engine = t.engine) (hmem : ∀ f, f ∈ files ↔ f ∈ files')
    (hfiles : PathsDistinguish files)
    (hloaded : ∀ name, name ∈ s.loaded ↔ name ∈ t.loaded)
    (hdiscovered : ∀ name, name ∈ s.discovered ↔ name ∈ t.discovered) : Agree u v := by
  have hfiles' : PathsDistinguish files' := hfiles.mono (fun f => (hmem f).2)
  have hfresh (f : CorpusFile) : f ∈ fresh s.corpus files ↔ f ∈ fresh t.corpus files' := by
    rw [mem_fresh_iff hfiles, mem_fresh_iff hfiles', hmem, hcorpus]
  have hnew : PathsDistinguish (fresh s.corpus files) := hfiles.mono (fresh_subset _ _)
  have hnew' : PathsDistinguish (fresh t.corpus files') := hfiles'.mono (fresh_subset _ _)
  constructor
  case file =>
    intro path
    have hfind : (fresh s.corpus files).find? (fun g => g.path = path) =
        (fresh t.corpus files').find? (fun g => g.path = path) := by
      ext f
      rw [hnew.find?_eq_some_iff, hnew'.find?_eq_some_iff, hfresh]
    rw [file?, file?, h.corpus, h'.corpus, List.find?_append, List.find?_append, hfind, hcorpus]
  case sources =>
    intro f
    simp only [h.sources, h'.sources, hengine, List.mem_append, List.mem_map, hfresh]
  case models =>
    intro f
    simp only [h.models, h'.models, hengine, List.mem_append, List.mem_map, List.mem_filter, hfresh]
  case loaded =>
    intro name
    rw [h.loaded, h'.loaded, hloaded]
  case discovered =>
    intro name
    rw [h.discovered, h'.discovered, hdiscovered]

/-! ## Main result -/

/-- Loading packages from files in memory, in whatever state of the session, comes to the same for
all lists that hold the same packages, in any order and with any repetitions. -/
theorem loadEach_order_independent (t : Tree) (specifiersIn : Text → List Text)
    (settings : Settings) (s : Session) {names names' : List Text}
    (h : ∀ name, name ∈ names ↔ name ∈ names') :
    Agree (loadEach (t.project specifiersIn settings) names s)
      (loadEach (t.project specifiersIn settings) names' s) := by
  obtain ⟨files, hmem, hbrings⟩ :=
    exists_brings_loadEach (p := t.project specifiersIn settings) names s
  obtain ⟨files', hmem', hbrings'⟩ :=
    exists_brings_loadEach (p := t.project specifiersIn settings) names' s
  have hread : ∀ f ∈ files, t.store.read f.path = .ok f.content := by
    intro f hf
    obtain ⟨name, -, -, hfile⟩ := (hmem f).1 hf
    exact Project.read_of_mem_packageFiles t.lexical_store hfile
  refine hbrings.agree hbrings' (by simp) (by simp) ?_ (pathsDistinguish_of_read hread) ?_ ?_
  · intro f
    simp only [hmem, hmem', h]
  · intro name
    rw [mem_loaded_takeEach_iff, mem_loaded_takeEach_iff, h]
  · intro name
    simp only [← List.count_pos_iff, count_discovered_takeEach, h]

/-- Two packages of which one names a file of the other in its manifest. -/
def siblings : Tree :=
  .ofFiles [("node_modules/a/package.json".toList,
      "\x7b\"types\":\"../b/own.d.ts\"\x7d".toList),
    ("node_modules/b/own.d.ts".toList, "export \x7b\x7d".toList)]

/-- The siblings may be loaded in either order; the file that they share is fed either way. -/
theorem loadEach_siblings_either_way :
    let p := siblings.project (fun _ => []) {}
    (∀ name, name ∈ [['a'], ['b']] ↔ name ∈ [['b'], ['a'], ['b']]) ∧
      (loadEach p [['a'], ['b']] new).has "node_modules/b/own.d.ts".toList = true ∧
      Agree (loadEach p [['a'], ['b']] new) (loadEach p [['b'], ['a'], ['b']] new) := by
  have h : ∀ name : Text, name ∈ [['a'], ['b']] ↔ name ∈ [['b'], ['a'], ['b']] := by
    intro name
    simp only [List.mem_cons]
    tauto
  exact ⟨h, by decide +kernel, loadEach_order_independent siblings _ {} new h⟩

end Session

end SourceClosure
