import SourceClosure.Proofs.Session.Findings

/-!
# How many files were registered

A session counts what it registers in three ways. A crawl counts file by file, the loaders of one
package and of all packages compare the sizes of the corpus before and after, and the loader of the
packages that sources mention adds up what it was told about each of them. The same file may come
up several times on the way: a manifest names it and the crawl meets it again, or two type roots
lead to it.

All of these numbers are how much the session has grown (`registered_is_growth`). That is said by
`Grows`: for every file that is counted, one more stands at the end of the corpus, and one more at
the end of the engine's sources.
-/

namespace SourceClosure

namespace Session

variable {p : Project}

/-! ## Growth -/

/-- The second session has `n` more files than the first: they stand at the end of its corpus, and
in the same order at the end of the engine's sources. -/
def Grows (n : Nat) (s t : Session) : Prop :=
  ∃ added : List CorpusFile, added.length = n ∧ t.corpus = s.corpus ++ added ∧
    t.engine.sources = s.engine.sources ++ added.map CorpusFile.source

namespace Grows

/-- Nothing but the corpus and the engine's sources matters. -/
theorem zero {s t : Session} (hcorpus : t.corpus = s.corpus)
    (hsources : t.engine.sources = s.engine.sources) : Grows 0 s t :=
  ⟨[], rfl, by simpa using hcorpus, by simpa using hsources⟩

theorem refl (s : Session) : Grows 0 s s :=
  zero rfl rfl

theorem trans {m n : Nat} {s t u : Session} (h : Grows m s t) (h' : Grows n t u) :
    Grows (m + n) s u := by
  obtain ⟨added, hlength, hcorpus, hsources⟩ := h
  obtain ⟨more, hlength', hcorpus', hsources'⟩ := h'
  refine ⟨added ++ more, by rw [List.length_append, hlength, hlength'], ?_, ?_⟩
  · rw [hcorpus', hcorpus, List.append_assoc]
  · rw [hsources', hsources, List.map_append, List.append_assoc]

theorem note {n : Nat} {s t : Session} (h : Grows n s t) (a : Access) : Grows n s (t.note a) :=
  h.trans (zero rfl rfl)

/-- What feeds nothing on the way does not count. -/
theorem after_zero {n : Nat} {s t u : Session} (h : Grows 0 s t) (h' : Grows n t u) :
    Grows n s u := by
  have hgrows := h.trans h'
  rwa [Nat.zero_add] at hgrows

theorem corpus_length {n : Nat} {s t : Session} (h : Grows n s t) :
    t.corpus.length = s.corpus.length + n := by
  obtain ⟨added, hlength, hcorpus, -⟩ := h
  rw [hcorpus, List.length_append, hlength]

end Grows

/-- Registering a file counts as one exactly if the file was fed now. -/
theorem grows_register (path content : Text) (s : Session) :
    Grows (s.register p path content).1.toNat s (s.register p path content).2 := by
  cases h : s.has (Path.toProject path) with
  | true =>
    rw [register_of_has h]
    exact .refl s
  | false =>
    rw [register_of_not_has h]
    refine ⟨[⟨Path.toProject path, content⟩], rfl, rfl, ?_⟩
    dsimp only
    split <;> rfl

/-- Every elementary change feeds some number of files, none of which is lost again. -/
theorem Change.exists_grows {s t : Session} (h : Change p s t) : ∃ n, Grows n s t := by
  cases h with
  | note => exact ⟨0, .zero rfl rfl⟩
  | feed => exact ⟨_, grows_register _ _ s⟩
  | discover => exact ⟨0, .zero (discover_corpus _ s) (by rw [discover_engine])⟩
  | take => exact ⟨0, .zero rfl rfl⟩
  | requeue => exact ⟨0, .zero rfl rfl⟩

/-- The difference of the sizes of the corpus is by how much the session has grown: it never has to
be cut off at zero. -/
theorem Evolves.grows {s t : Session} (h : Evolves p s t) :
    Grows (t.corpus.length - s.corpus.length) s t := by
  obtain ⟨n, hn⟩ : ∃ n, Grows n s t := by
    refine h.invariant (I := fun t => ∃ n, Grows n s t) ?_ ⟨0, .refl s⟩
    rintro t u hchange ⟨m, hm⟩
    obtain ⟨n, hn⟩ := hchange.exists_grows
    exact ⟨m + n, hm.trans hn⟩
  rwa [hn.corpus_length, Nat.add_sub_cancel_left]

/-! ## Directories -/

/-- The count of a crawl goes up with the size of the corpus. -/
theorem grows_crawl (path : Text) (depth : Nat) (s : Session) :
    Grows (crawl p path depth s).1.registered s (crawl p path depth s).2 := by
  have hgrows := (evolves_crawl (p := p) path depth s).grows
  have hcounted : (crawl p path depth s).1.registered + s.corpus.length =
      0 + (crawl p path depth s).2.corpus.length := (reports_crawl path depth s).counted
  have hcount : (crawl p path depth s).1.registered =
      (crawl p path depth s).2.corpus.length - s.corpus.length := by omega
  rwa [hcount]

/-! ## Packages -/

/-- Looking for a directory feeds nothing. -/
theorem grows_firstPresent (directories : List Text) (s : Session) :
    Grows 0 s (firstPresent p directories s).2 := by
  induction directories generalizing s with
  | nil => exact .refl s
  | cons d directories ih =>
    have hnote := (Grows.refl s).note (.present d)
    unfold firstPresent
    split
    · exact hnote
    · exact hnote.trans (ih _)

theorem grows_loadFolder (directory : Text) (s : Session) :
    Grows (loadFolder p directory s).1 s (loadFolder p directory s).2 :=
  (evolves_loadFolder directory s).grows

theorem grows_loadFresh (name : Text) (s : Session) :
    Grows (loadFresh p name s).1.registered s (loadFresh p name s).2 := by
  have hstub := grows_firstPresent (p := p)
    (s.config.options.typeRoots.map (fun root => Path.join root (Specifier.stubName name))) s
  unfold loadFresh
  dsimp only
  split
  · exact hstub.after_zero (grows_crawl _ _ _)
  · have hasked := hstub.note (.present (Path.join p.settings.packageRoot name))
    split
    · exact hasked.after_zero (grows_loadFolder _ _)
    · exact hasked

theorem grows_loadPackage (name : Text) (s : Session) :
    Grows (loadPackage p name s).1.registered s (loadPackage p name s).2 := by
  unfold loadPackage
  split
  · exact .refl s
  · have htaken : Grows 0 s
        { s with loaded := name :: s.loaded, discovered := s.discovered.erase name } :=
      .zero rfl rfl
    exact htaken.after_zero (grows_loadFresh name _)

theorem grows_preload (s : Session) : Grows (preload p s).1 s (preload p s).2 :=
  (evolves_preload s).grows

/-- What the packages report one by one adds up, also where one of them registers what another one
would have registered. -/
theorem grows_loadMentioned (names : List Text) (s : Session) :
    Grows (loadMentioned p names s).1 s (loadMentioned p names s).2 := by
  induction names generalizing s with
  | nil => exact .refl s
  | cons name names ih =>
    have hwaiting : Grows 0 s { s with discovered := names } := .zero rfl rfl
    exact (hwaiting.after_zero (grows_loadPackage name _)).trans (ih _)

/-! ## What is reported -/

/-- Whatever number of files a loader reports, by so many files the corpus and the engine's sources
have grown meanwhile; and where the number is a difference of two sizes of the corpus, the later
size is at least the earlier one. -/
theorem registered_is_growth (p : Project) (s : Session) :
    (∀ name, Grows (loadPackage p name s).1.registered s (loadPackage p name s).2) ∧
      Grows (preload p s).1 s (preload p s).2 ∧
      Grows (loadDiscovered p s).1 s (loadDiscovered p s).2 ∧
      (∀ path depth,
        Grows (crawl p path depth s).1.registered s (crawl p path depth s).2) ∧
      (∀ directory, s.corpus.length ≤ (loadFolder p directory s).2.corpus.length) ∧
      s.corpus.length ≤ (preload p s).2.corpus.length := by
  have hle {n : Nat} {t : Session} (h : Grows n s t) : s.corpus.length ≤ t.corpus.length := by
    rw [h.corpus_length]
    exact Nat.le_add_right _ _
  refine ⟨fun name => grows_loadPackage name s, grows_preload s, grows_loadMentioned _ s,
    fun path depth => grows_crawl path depth s, fun directory => ?_, ?_⟩
  · exact hle (grows_loadFolder directory s)
  · exact hle (grows_preload s)

end Session

end SourceClosure
