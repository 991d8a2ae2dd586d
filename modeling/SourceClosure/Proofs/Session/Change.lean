import Mathlib.Logic.Relation
import SourceClosure.Session.Operation
import SourceClosure.Proofs.Path.Candidates

/-!
# Elementary changes of a session

Whatever a session does between two operations of its user, it does by a few elementary changes:
it puts a question to the store, feeds a file that the store has read, notes a package that a
specifier belongs to, takes a package up, or drops packages from those waiting. This module says
so once for every loader (`evolves_loadWithin`, `evolves_crawl`, `evolves_loadPackage`), so that
an invariant of a session is proved for the elementary changes only (`run_invariant`).
-/

namespace SourceClosure

namespace Session

/-! ## The corpus -/

theorem has_iff {s : Session} {path : Text} : s.has path = true ↔ ∃ f ∈ s.corpus, f.path = path := by
  simp [has]

theorem has_of_prefix {s t : Session} {path : Text} (h : s.corpus <+: t.corpus)
    (hs : s.has path = true) : t.has path = true := by
  obtain ⟨f, hf, hpath⟩ := has_iff.1 hs
  exact has_iff.2 ⟨f, h.subset hf, hpath⟩

theorem register_of_has {p : Project} {path : Text} {s : Session}
    (h : s.has (Path.toProject path) = true) (content : Text) :
    s.register p path content = (false, s) := by
  simp [register, h]

theorem register_of_not_has {p : Project} {path : Text} {s : Session}
    (h : s.has (Path.toProject path) = false) (content : Text) :
    s.register p path content =
      (true,
        { s with
          engine :=
            if p.isLive (Path.toProject path) then
              (s.engine.addSource ⟨Path.toUri (Path.toProject path), content⟩).openModel
                ⟨Path.toUri (Path.toProject path), content⟩
            else s.engine.addSource ⟨Path.toUri (Path.toProject path), content⟩
          corpus := s.corpus ++ [⟨Path.toProject path, content⟩] }) := by
  simp [register, h]

/-- The corpus after registering a file is the one before it, or has the file at its end. -/
theorem register_corpus (p : Project) (path content : Text) (s : Session) :
    (s.register p path content).2.corpus = s.corpus ∨
      (s.register p path content).2.corpus = s.corpus ++ [⟨Path.toProject path, content⟩] := by
  cases h : s.has (Path.toProject path) with
  | true => exact .inl (by rw [register_of_has h])
  | false => exact .inr (by rw [register_of_not_has h])

theorem corpus_prefix_register (p : Project) (path content : Text) (s : Session) :
    s.corpus <+: (s.register p path content).2.corpus := by
  rcases register_corpus p path content s with h | h
  · exact h ▸ List.prefix_refl _
  · exact h ▸ List.prefix_append _ _

theorem has_register_iff {p : Project} {path content g : Text} {s : Session} :
    (s.register p path content).2.has g = true ↔ s.has g = true ∨ Path.toProject path = g := by
  cases h : s.has (Path.toProject path) with
  | true =>
    rw [register_of_has h]
    constructor
    · exact .inl
    · rintro (hg | rfl)
      · exact hg
      · exact h
  | false =>
    rw [register_of_not_has h]
    simp [has]

@[simp] theorem register_config (p : Project) (path content : Text) (s : Session) :
    (s.register p path content).2.config = s.config := by
  unfold register
  dsimp only
  split <;> rfl

theorem discover_corpus (package : Text) (s : Session) :
    (discover package s).corpus = s.corpus := by
  unfold discover
  split <;> rfl

theorem discover_engine (package : Text) (s : Session) :
    (discover package s).engine = s.engine := by
  unfold discover
  split <;> rfl

@[simp] theorem discover_config (package : Text) (s : Session) :
    (discover package s).config = s.config := by
  unfold discover
  split <;> rfl

/-! ## Changes -/

/-- One elementary change of a session that works on a project. -/
inductive Change (p : Project) : Session → Session → Prop where
  /-- A question is put to the store. -/
  | note (s : Session) (a : Access) : Change p s (s.note a)
  /-- A file that the store has read is fed. -/
  | feed (s : Session) {path content : Text} :
      p.files.read path = .ok content → Path.hasSuffix path = true →
      Change p s (s.register p path content).2
  /-- The package of an external specifier is noted. -/
  | discover (s : Session) {specifier : Text} :
      Specifier.kind s.aliases specifier = .external →
      Change p s (discover (Specifier.packageName specifier) s)
  /-- A package that was not asked for before is taken up. -/
  | take (s : Session) {name : Text} : s.isLoaded name = false →
      Change p s { s with loaded := name :: s.loaded, discovered := s.discovered.erase name }
  /-- The packages that wait are replaced by others. -/
  | requeue (s : Session) (names : List Text) : Change p s { s with discovered := names }

/-- The second session comes of the first by elementary changes. -/
def Evolves (p : Project) : Session → Session → Prop :=
  Relation.ReflTransGen (Change p)

variable {p : Project}

theorem Change.evolves {s t : Session} (h : Change p s t) : Evolves p s t :=
  Relation.ReflTransGen.single h

namespace Evolves

theorem refl (s : Session) : Evolves p s s :=
  Relation.ReflTransGen.refl

theorem trans {s t u : Session} (h : Evolves p s t) (h' : Evolves p t u) : Evolves p s u :=
  Relation.ReflTransGen.trans h h'

/-- What every elementary change keeps is kept throughout. -/
theorem invariant {I : Session → Prop} (hI : ∀ {s t : Session}, Change p s t → I s → I t)
    {s t : Session} (h : Evolves p s t) (hs : I s) : I t := by
  induction h with
  | refl => exact hs
  | tail _ hchange ih => exact hI hchange ih

theorem foldl {α : Type} {f : Session → α → Session} (hf : ∀ s a, Evolves p s (f s a))
    (l : List α) (s : Session) : Evolves p s (l.foldl f s) := by
  induction l generalizing s with
  | nil => exact refl s
  | cons a l ih => exact (hf s a).trans (ih (f s a))

/-- The corpus only grows, at its end. -/
theorem corpus_grows {s t : Session} (h : Evolves p s t) : s.corpus <+: t.corpus := by
  refine h.invariant (fun {t u} hchange (ht : s.corpus <+: t.corpus) => ?_) (List.prefix_refl _)
  cases hchange with
  | note => exact ht
  | feed => exact ht.trans (corpus_prefix_register p _ _ _)
  | discover => rwa [discover_corpus]
  | take => exact ht
  | requeue => exact ht

theorem has {s t : Session} {path : Text} (h : Evolves p s t) (hs : s.has path = true) :
    t.has path = true :=
  has_of_prefix h.corpus_grows hs

/-- The configuration stays as it is. -/
theorem config {s t : Session} (h : Evolves p s t) : t.config = s.config := by
  refine h.invariant (fun {t u} hchange (ht : t.config = s.config) => ?_) rfl
  cases hchange with
  | note => exact ht
  | feed => rwa [register_config]
  | discover => rwa [discover_config]
  | take => exact ht
  | requeue => exact ht

theorem aliases {s t : Session} (h : Evolves p s t) : t.aliases = s.aliases := by
  rw [Session.aliases, Session.aliases, h.config]

end Evolves

/-! ## Sources -/

theorem evolves_note (s : Session) (a : Access) : Evolves p s (s.note a) :=
  (Change.note s a).evolves

theorem evolves_probeEach (candidates : List Text) (s : Session) :
    Evolves p s (probeEach p candidates s).2 := by
  induction candidates generalizing s with
  | nil => exact .refl s
  | cons c candidates ih =>
    unfold probeEach
    split
    · exact evolves_note s _
    · exact (evolves_note s _).trans (ih _)

theorem evolves_probe (stem : Text) (s : Session) : Evolves p s (probe p stem s).2 :=
  evolves_probeEach _ s

theorem hasSuffix_of_probe {stem path : Text} {s : Session}
    (h : (probe p stem s).1 = some path) : Path.hasSuffix path = true := by
  have hmem (candidates : List Text) (s : Session)
      (h : (probeEach p candidates s).1 = some path) : path ∈ candidates := by
    induction candidates generalizing s with
    | nil => cases h
    | cons c candidates ih =>
      unfold probeEach at h
      split at h
      · cases h
        exact List.mem_cons_self
      · exact List.mem_cons_of_mem _ (ih _ h)
  exact Path.hasSuffix_of_mem_candidates (hmem _ s h)

section Load

variable {load : Text → Session → LoadOutcome × Session}
  (hload : ∀ stem s, Evolves p s (load stem s).2)

include hload

theorem evolves_loadFirst (stems : List Text) (s : Session) :
    Evolves p s (loadFirst load stems s) := by
  induction stems generalizing s with
  | nil => exact .refl s
  | cons stem stems ih =>
    unfold loadFirst
    dsimp only
    split
    · exact (hload stem s).trans (ih _)
    · exact hload stem s

theorem evolves_follow (directory : Text) (s : Session) (specifier : Text) :
    Evolves p s (follow load directory s specifier) := by
  unfold follow
  split
  · exact hload _ s
  · exact evolves_loadFirst hload _ s
  · next h => exact (Change.discover s h).evolves

/-- After a file is registered, following its specifiers only brings elementary changes. -/
theorem evolves_feed_register (path content : Text) (s : Session) :
    Evolves p (s.register p path content).2 (feed p load path content s) := by
  unfold feed
  dsimp only
  split
  · exact Evolves.foldl (evolves_follow hload _) _ _
  · exact .refl _

theorem evolves_feed {path content : Text} (hread : p.files.read path = .ok content)
    (hsuffix : Path.hasSuffix path = true) (s : Session) :
    Evolves p s (feed p load path content s) :=
  (Change.feed s hread hsuffix).evolves.trans (evolves_feed_register hload path content s)

end Load

theorem evolves_loadWithin (room : Nat) (stem : Text) (s : Session) :
    Evolves p s (loadWithin p room stem s).2 := by
  induction room generalizing stem s with
  | zero => exact .refl s
  | succ room ih =>
    have hprobe := evolves_probe (p := p) stem s
    unfold loadWithin
    dsimp only
    split
    · exact .refl s
    · split
      · exact hprobe
      · next path hpath =>
        split
        · exact hprobe
        · have hnote := hprobe.trans (evolves_note _ (.read path))
          split
          · exact hnote
          · next content hread =>
            exact hnote.trans (evolves_feed ih hread (hasSuffix_of_probe hpath) _)

theorem evolves_loadSource (path : Text) (depth : Nat) (s : Session) :
    Evolves p s (loadSource p path depth s).2 :=
  evolves_loadWithin _ _ s

/-! ## Directories -/

theorem evolves_crawlFile {path : Text} (hsuffix : Path.hasSuffix path = true) (c : Crawl) :
    Evolves p c.2 (crawlFile p path c).2 := by
  have hnote := evolves_note (p := p) c.2 (.read path)
  unfold crawlFile
  dsimp only
  split
  · exact hnote
  · next content hread =>
    split
    · exact hnote
    · exact hnote.trans (Change.feed _ hread hsuffix).evolves

theorem hasSuffix_of_isDeclaration {name : Text} (h : Path.isDeclaration name = true) :
    Path.hasSuffix name = true := by
  unfold Path.isDeclaration at h
  unfold Path.hasSuffix
  cases hs : Suffix.ofPath? name with
  | none => simp [hs] at h
  | some _ => rfl

theorem evolves_crawlEntry {enter : Option (Text → Crawl → Crawl)}
    (henter : ∀ f, enter = some f → ∀ path c, Evolves p c.2 (f path c).2) (directory : Text)
    (c : Crawl) (e : Entry) : Evolves p c.2 (crawlEntry p enter directory c e).2 := by
  unfold crawlEntry
  dsimp only
  split
  · exact .refl c.2
  · split
    · split
      · exact .refl c.2
      · split
        · exact .refl c.2
        · exact henter _ rfl _ c
    · split
      · next h =>
        exact evolves_crawlFile (Path.hasSuffix_join (hasSuffix_of_isDeclaration h) directory) c
      · exact .refl c.2

theorem evolves_crawlEntries {enter : Option (Text → Crawl → Crawl)}
    (henter : ∀ f, enter = some f → ∀ path c, Evolves p c.2 (f path c).2) (directory : Text)
    (entries : List Entry) (c : Crawl) :
    Evolves p c.2 (entries.foldl (crawlEntry p enter directory) c).2 := by
  induction entries generalizing c with
  | nil => exact .refl c.2
  | cons e entries ih => exact (evolves_crawlEntry henter directory c e).trans (ih _)

theorem evolves_crawlFolder {enter : Option (Text → Crawl → Crawl)}
    (henter : ∀ f, enter = some f → ∀ path c, Evolves p c.2 (f path c).2) (directory : Text)
    (c : Crawl) : Evolves p c.2 (crawlFolder p enter directory c).2 := by
  have hnote := evolves_note (p := p) c.2 (.list directory)
  unfold crawlFolder
  dsimp only
  split
  · exact hnote
  · exact hnote.trans (evolves_crawlEntries henter directory _ (c.1, c.2.note (.list directory)))

theorem evolves_crawlWithin (depth : Nat) (path : Text) (c : Crawl) :
    Evolves p c.2 (crawlWithin p depth path c).2 := by
  induction depth generalizing path c with
  | zero =>
    apply evolves_crawlFolder
    intro f hf
    cases hf
  | succ depth ih =>
    apply evolves_crawlFolder
    intro f hf
    cases hf
    exact ih

theorem evolves_crawl (path : Text) (depth : Nat) (s : Session) :
    Evolves p s (crawl p path depth s).2 :=
  evolves_crawlWithin depth _ ({}, s)

/-! ## Packages -/

theorem evolves_firstPresent (directories : List Text) (s : Session) :
    Evolves p s (firstPresent p directories s).2 := by
  induction directories generalizing s with
  | nil => exact .refl s
  | cons d directories ih =>
    unfold firstPresent
    split
    · exact evolves_note s _
    · exact (evolves_note s _).trans (ih _)

theorem evolves_registerEntry {path : Text} (hsuffix : Path.hasSuffix path = true)
    (s : Session) : Evolves p s (registerEntry p path s) := by
  have hpresent := evolves_note (p := p) s (.present path)
  unfold registerEntry
  dsimp only
  split
  · have hread := hpresent.trans (evolves_note _ (.read path))
    split
    · next content h => exact hread.trans (Change.feed _ h hsuffix).evolves
    · exact hread
  · exact hpresent

theorem hasSuffix_entryPath (directory : Text) (manifest : Option Manifest) :
    Path.hasSuffix (entryPath directory manifest) = true := by
  unfold entryPath
  split
  · exact Path.hasSuffix_join (by decide) directory
  · dsimp only
    split
    · next h => exact h
    · exact Path.hasSuffix_append_text _ _

theorem evolves_loadFolder (directory : Text) (s : Session) :
    Evolves p s (loadFolder p directory s).2 := by
  have hmanifest := evolves_note (p := p) s (.read (Path.join directory Manifest.fileName))
  have hentry := hmanifest.trans (evolves_registerEntry (hasSuffix_entryPath directory
    (readManifest p directory s).1) _)
  exact hentry.trans (evolves_crawl directory _ _)

theorem evolves_loadFresh (name : Text) (s : Session) :
    Evolves p s (loadFresh p name s).2 := by
  have hfirst := evolves_firstPresent (p := p) (s.config.options.typeRoots.map (fun root =>
    Path.join root (Specifier.stubName name))) s
  unfold loadFresh
  dsimp only
  split
  · exact hfirst.trans (evolves_crawl _ _ _)
  · have hpresent := hfirst.trans
      (evolves_note _ (.present (Path.join p.settings.packageRoot name)))
    split
    · exact hpresent.trans (evolves_loadFolder _ _)
    · exact hpresent

theorem evolves_loadPackage (name : Text) (s : Session) :
    Evolves p s (loadPackage p name s).2 := by
  unfold loadPackage
  split
  · exact .refl s
  · next h =>
    have hnot : s.isLoaded name = false := by simpa using h
    exact (Change.take s hnot).evolves.trans (evolves_loadFresh name _)

theorem evolves_loadEach (names : List Text) (s : Session) :
    Evolves p s (loadEach p names s) :=
  Evolves.foldl (fun s name => evolves_loadPackage name s) names s

theorem evolves_loadTypeRoot (s : Session) (root : Text) :
    Evolves p s (loadTypeRoot p s root) := by
  have hnote := evolves_note (p := p) s (.list root)
  unfold loadTypeRoot
  dsimp only
  split
  · exact hnote
  · exact hnote.trans (evolves_loadEach _ _)

theorem evolves_preload (s : Session) : Evolves p s (preload p s).2 :=
  (evolves_loadEach _ s).trans (Evolves.foldl evolves_loadTypeRoot _ _)

theorem evolves_loadMentioned (names : List Text) (s : Session) :
    Evolves p s (loadMentioned p names s).2 := by
  induction names generalizing s with
  | nil => exact .refl s
  | cons name names ih =>
    have hpackage := (Change.requeue (p := p) s names).evolves.trans
      (evolves_loadPackage name { s with discovered := names })
    exact hpackage.trans (ih _)

theorem evolves_loadDiscovered (s : Session) : Evolves p s (loadDiscovered p s).2 :=
  evolves_loadMentioned _ s

/-! ## Operations -/

theorem configure_corpus (s : Session) : (configure p s).corpus = s.corpus := by
  unfold configure Session.advance
  dsimp only
  split
  · split <;> rfl
  · rfl

theorem advance_corpus (s : Session) (phase : Phase) : (s.advance phase).corpus = s.corpus := by
  unfold Session.advance
  split <;> rfl

/-- What is kept by every elementary change, by the configuration, by a later phase and by
files that are handed in, is kept by an operation. -/
theorem perform_invariant {I : Session → Prop} {operation : Operation}
    (hchange : ∀ {s t : Session}, Change p s t → I s → I t)
    (hconfigure : ∀ {s : Session}, I s → I (configure p s))
    (hadvance : ∀ {s : Session} (phase : Phase), I s → I (s.advance phase))
    (hregister : ∀ {path content : Text}, operation = .register path content →
      ∀ {s : Session}, I s → I (s.register p path content).2)
    {s : Session} (hs : I s) : I (perform p s operation).2 := by
  have hevolves {s t : Session} (h : Evolves p s t) (hs : I s) : I t := h.invariant hchange hs
  cases operation with
  | configure => exact hconfigure hs
  | start entry =>
    refine hadvance .ready (hevolves ?_ (hconfigure hs))
    exact ((evolves_preload _).trans (evolves_loadSource entry 0 _)).trans
      (evolves_loadDiscovered _)
  | activate path => exact hevolves (evolves_loadSource path 0 _) (hconfigure hs)
  | loadSource path depth => exact hevolves (evolves_loadSource path depth s) hs
  | probe stem => exact hevolves (evolves_probe stem s) hs
  | loadPackage name => exact hevolves (evolves_loadPackage name s) hs
  | preload => exact hevolves (evolves_preload s) hs
  | loadDiscovered => exact hevolves (evolves_loadDiscovered s) hs
  | crawl path depth => exact hevolves (evolves_crawl path depth s) hs
  | register path content => exact hregister rfl hs

/-- What holds of a new session and is kept by every operation of a run holds after the run. -/
theorem run_invariant {I : Session → Prop} {operations : List Operation}
    (hperform : ∀ operation ∈ operations, ∀ {s : Session}, I s → I (perform p s operation).2)
    {s : Session} (hs : I s) : I (run p s operations) := by
  induction operations generalizing s with
  | nil => exact hs
  | cons operation operations ih =>
    exact ih (fun o ho => hperform o (List.mem_cons_of_mem _ ho))
      (hperform operation List.mem_cons_self hs)

/-- An operation only adds files at the end of the corpus. -/
theorem corpus_prefix_perform (s : Session) (operation : Operation) :
    s.corpus <+: (perform p s operation).2.corpus := by
  refine perform_invariant (p := p) (I := fun t => s.corpus <+: t.corpus) ?_ ?_ ?_ ?_
    (List.prefix_refl _)
  · intro t u hchange ht
    exact ht.trans hchange.evolves.corpus_grows
  · intro t ht
    rwa [configure_corpus]
  · intro t phase ht
    rwa [advance_corpus]
  · intro path content _ t ht
    exact ht.trans (corpus_prefix_register p path content t)

/-- A run only adds files at the end of the corpus. -/
theorem corpus_prefix_run (s : Session) (operations : List Operation) :
    s.corpus <+: (run p s operations).corpus := by
  refine run_invariant (I := fun t => s.corpus <+: t.corpus) ?_ (List.prefix_refl _)
  intro operation _ t ht
  exact ht.trans (corpus_prefix_perform t operation)

end Session

end SourceClosure
