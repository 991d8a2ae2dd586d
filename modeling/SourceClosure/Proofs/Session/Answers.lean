import SourceClosure.Proofs.Config.Answers
import SourceClosure.Proofs.Session.Request

/-!
# A run depends on the answers it gets

A session remembers every question that it puts to its store. A store that answers those questions
alike makes for the same run, operation by operation, whatever else it would answer
(`Session.transcript_congr`).
-/

namespace SourceClosure

/-- The project with other files, and with everything else as it is. -/
def Project.on (p : Project) (files : Store) : Project :=
  { p with files := files }

@[simp] theorem Project.files_on (p : Project) (files : Store) : (p.on files).files = files := rfl

@[simp] theorem Project.settings_on (p : Project) (files : Store) :
    (p.on files).settings = p.settings := rfl

variable {p : Project} {files' : Store}

/-! ## Questions are only added -/

@[simp] theorem Session.register_accesses (p : Project) (path content : Text) (s : Session) :
    (s.register p path content).2.accesses = s.accesses := by
  unfold register
  dsimp only
  split <;> rfl

theorem Session.Evolves.accesses_grow {s t : Session} (h : Session.Evolves p s t) :
    s.accesses <:+ t.accesses := by
  refine h.invariant (fun {t u} hchange (ht : s.accesses <:+ t.accesses) => ?_)
    (List.suffix_refl _)
  cases hchange with
  | note a => exact ht.trans (List.suffix_cons a _)
  | feed =>
    rwa [Session.register_accesses]
  | discover =>
    unfold Session.discover
    split <;> exact ht
  | take => exact ht
  | requeue => exact ht

namespace AnswerAlike

variable {s t : Session}

/-- What was asked on the way is answered alike. -/
theorem before (h : AnswerAlike p.files files' t.accesses) (ht : Session.Evolves p s t) :
    AnswerAlike p.files files' s.accesses :=
  h.mono ht.accesses_grow

/-- A question that was put on the way is answered alike. -/
theorem note (h : AnswerAlike p.files files' t.accesses) {a : Access}
    (ht : Session.Evolves p (s.note a) t) : a.SameAnswer p.files files' :=
  h.before ht a List.mem_cons_self

end AnswerAlike

namespace Session

/-! ## Sources -/

theorem probeEach_congr {candidates : List Text} {s : Session}
    (h : AnswerAlike p.files files' (probeEach p candidates s).2.accesses) :
    probeEach (p.on files') candidates s = probeEach p candidates s := by
  induction candidates generalizing s with
  | nil => rfl
  | cons c candidates ih =>
    have hask : Evolves p (s.note (.isFile c)) (probeEach p (c :: candidates) s).2 := by
      unfold probeEach
      split
      · exact .refl _
      · exact evolves_probeEach _ _
    have hanswer : (p.on files').files.isFile c = p.files.isFile c := (h.note hask).symm
    unfold probeEach at h ⊢
    rw [hanswer]
    split
    · rfl
    · next hfile =>
      rw [if_neg hfile] at h
      exact ih h

theorem evolves_loadWithin_of_probe {stem : Text} {s : Session} (hstem : ¬ s.has stem = true)
    (room : Nat) : Evolves p (probe p stem s).2 (loadWithin p (room + 1) stem s).2 := by
  unfold loadWithin
  dsimp only
  rw [if_neg hstem]
  split
  · exact .refl _
  next path hprobed =>
  split
  · exact .refl _
  split
  · exact evolves_note _ _
  next content hread =>
  exact (evolves_note _ _).trans
    (evolves_feed (evolves_loadWithin room) hread (hasSuffix_of_probe hprobed) _)

theorem loadWithin_congr_files {room : Nat} {stem : Text} {s : Session}
    (h : AnswerAlike p.files files' (loadWithin p room stem s).2.accesses) :
    loadWithin (p.on files') room stem s = loadWithin p room stem s := by
  induction room generalizing stem s with
  | zero => rfl
  | succ room ih =>
    by_cases hstem : s.has stem = true
    · simp [loadWithin, hstem]
    have hprobe : probe (p.on files') stem s = probe p stem s :=
      probeEach_congr (h.before (evolves_loadWithin_of_probe hstem room))
    unfold loadWithin at h ⊢
    dsimp only at h ⊢
    rw [if_neg hstem] at h
    rw [if_neg hstem, if_neg hstem, hprobe]
    cases hprobed : (probe p stem s).1 with
    | none => rfl
    | some path =>
      rw [hprobed] at h
      dsimp only at h ⊢
      by_cases hpath : (probe p stem s).2.has path = true
      · rw [if_pos hpath, if_pos hpath]
      rw [if_neg hpath] at h
      rw [if_neg hpath, if_neg hpath]
      cases hread : p.files.read path with
      | error fault =>
        rw [hread] at h
        have hanswer : (p.on files').files.read path = .error fault :=
          (h.note (.refl _)).symm.trans hread
        rw [hanswer]
      | ok content =>
        rw [hread] at h
        have hfeed := evolves_feed (p := p) (evolves_loadWithin room) hread
          (hasSuffix_of_probe hprobed) ((probe p stem s).2.note (.read path))
        have hanswer : (p.on files').files.read path = .ok content :=
          (h.note hfeed).symm.trans hread
        rw [hanswer]
        -- The calls that the file makes come before the end, so their questions are answered alike.
        refine congrArg (Prod.mk _) (feed_congr (fun call hcall => ih (h.before ?_)))
        obtain ⟨-, -, -, -, -, -, hafter⟩ := exists_of_mem_feedCalls (evolves_loadWithin room) hcall
        exact hafter

theorem loadSource_congr {path : Text} {depth : Nat} {s : Session}
    (h : AnswerAlike p.files files' (loadSource p path depth s).2.accesses) :
    loadSource (p.on files') path depth s = loadSource p path depth s :=
  loadWithin_congr_files h

/-! ## Directories -/

theorem crawlFile_accesses (p : Project) (path : Text) (c : Crawl) :
    (crawlFile p path c).2.accesses = .read path :: c.2.accesses := by
  unfold crawlFile
  dsimp only
  split
  · rfl
  · split
    · rfl
    · rw [register_accesses]
      rfl

theorem crawlFile_congr {path : Text} {c : Crawl}
    (h : AnswerAlike p.files files' (crawlFile p path c).2.accesses) :
    crawlFile (p.on files') path c = crawlFile p path c := by
  rw [crawlFile_accesses] at h
  have hanswer : (p.on files').files.read path = p.files.read path :=
    (h (.read path) List.mem_cons_self).symm
  unfold crawlFile
  rw [hanswer]
  rfl

/-- The second search comes to the same as the first if the first gets the same answers. -/
def SearchesAlike (p : Project) (files' : Store) (search search' : Text → Crawl → Crawl) : Prop :=
  ∀ path c, AnswerAlike p.files files' (search path c).2.accesses → search' path c = search path c

section Enter

variable {enter enter' : Option (Text → Crawl → Crawl)}
  (henter : Option.Rel (SearchesAlike p files') enter enter')

include henter

theorem crawlEntry_congr {directory : Text} {c : Crawl} {e : Entry}
    (h : AnswerAlike p.files files' (crawlEntry p enter directory c e).2.accesses) :
    crawlEntry (p.on files') enter' directory c e = crawlEntry p enter directory c e := by
  unfold crawlEntry at h ⊢
  by_cases hhidden : e.name.head? = some '.'
  · simp [hhidden]
  by_cases hfolder : e.isFolder = true
  · by_cases hdenied : p.settings.isDenied e.name = true
    · simp [hhidden, hfolder, hdenied]
    · simp only [hhidden, hfolder, hdenied, Project.settings_on, if_true, if_false] at h ⊢
      cases henter with
      | none => rfl
      | some hsearch => exact hsearch _ _ h
  · by_cases hdeclaration : Path.isDeclaration e.name = true
    · simp only [hhidden, hfolder, hdeclaration, if_true, if_false] at h ⊢
      exact crawlFile_congr h
    · simp [hhidden, hfolder, hdeclaration]

theorem crawlEntries_congr
    (hevolves : ∀ f, enter = some f → ∀ path c, Evolves p c.2 (f path c).2)
    {directory : Text} {entries : List Entry} {c : Crawl}
    (h : AnswerAlike p.files files'
      (entries.foldl (crawlEntry p enter directory) c).2.accesses) :
    entries.foldl (crawlEntry (p.on files') enter' directory) c =
      entries.foldl (crawlEntry p enter directory) c := by
  induction entries generalizing c with
  | nil => rfl
  | cons e entries ih =>
    have hgrows := evolves_crawlEntries hevolves directory entries
      (crawlEntry p enter directory c e)
    rw [List.foldl_cons, List.foldl_cons, crawlEntry_congr henter (h.before hgrows)]
    exact ih h

theorem crawlFolder_congr (hevolves : ∀ f, enter = some f → ∀ path c, Evolves p c.2 (f path c).2)
    {directory : Text} {c : Crawl}
    (h : AnswerAlike p.files files' (crawlFolder p enter directory c).2.accesses) :
    crawlFolder (p.on files') enter' directory c = crawlFolder p enter directory c := by
  unfold crawlFolder at h ⊢
  cases hlist : p.files.list directory with
  | error fault =>
    rw [hlist] at h
    have hanswer : (p.on files').files.list directory = .error fault :=
      (h.note (.refl _)).symm.trans hlist
    rw [hanswer]
  | ok entries =>
    rw [hlist] at h
    have hgrows := evolves_crawlEntries hevolves directory entries
      (c.1, c.2.note (.list directory))
    have hanswer : (p.on files').files.list directory = .ok entries :=
      (h.note hgrows).symm.trans hlist
    rw [hanswer]
    exact crawlEntries_congr henter hevolves h

end Enter

theorem crawlWithin_congr (depth : Nat) :
    SearchesAlike p files' (crawlWithin p depth) (crawlWithin (p.on files') depth) := by
  induction depth with
  | zero =>
    intro path c h
    exact crawlFolder_congr .none (fun f hf => nomatch hf) h
  | succ depth ih =>
    intro path c h
    refine crawlFolder_congr (.some ih) (fun f hf path c => ?_) h
    obtain rfl := Option.some_inj.1 hf
    exact evolves_crawlWithin depth path c

theorem crawl_congr {path : Text} {depth : Nat} {s : Session}
    (h : AnswerAlike p.files files' (crawl p path depth s).2.accesses) :
    crawl (p.on files') path depth s = crawl p path depth s :=
  crawlWithin_congr depth _ ({}, s) h

/-! ## Packages -/

theorem firstPresent_congr {directories : List Text} {s : Session}
    (h : AnswerAlike p.files files' (firstPresent p directories s).2.accesses) :
    firstPresent (p.on files') directories s = firstPresent p directories s := by
  induction directories generalizing s with
  | nil => rfl
  | cons d directories ih =>
    have hask : Evolves p (s.note (.present d)) (firstPresent p (d :: directories) s).2 := by
      unfold firstPresent
      split
      · exact .refl _
      · exact evolves_firstPresent _ _
    have hanswer : (p.on files').files.present d = p.files.present d := (h.note hask).symm
    unfold firstPresent at h ⊢
    rw [hanswer]
    split
    · rfl
    · next hpresent =>
      rw [if_neg hpresent] at h
      exact ih h

theorem registerEntry_congr {path : Text} (hsuffix : Path.hasSuffix path = true) {s : Session}
    (h : AnswerAlike p.files files' (registerEntry p path s).accesses) :
    registerEntry (p.on files') path s = registerEntry p path s := by
  unfold registerEntry at h ⊢
  dsimp only at h ⊢
  by_cases hpresent : p.files.present path = true
  · rw [if_pos hpresent] at h
    cases hread : p.files.read path with
    | error fault =>
      rw [hread] at h
      have hanswer : (p.on files').files.present path = true :=
        (h.note (evolves_note _ _)).symm.trans hpresent
      have hanswer' : (p.on files').files.read path = .error fault :=
        (h.note (.refl _)).symm.trans hread
      rw [if_pos hanswer, if_pos hpresent, hanswer']
    | ok content =>
      rw [hread] at h
      have hfeed := (Change.feed ((s.note (.present path)).note (.read path)) hread hsuffix).evolves
      have hanswer : (p.on files').files.present path = true :=
        (h.note ((evolves_note _ _).trans hfeed)).symm.trans hpresent
      have hanswer' : (p.on files').files.read path = .ok content :=
        (h.note hfeed).symm.trans hread
      rw [if_pos hanswer, if_pos hpresent, hanswer']
      rfl
  · rw [if_neg hpresent] at h
    have hanswer : (p.on files').files.present path = p.files.present path :=
      (h.note (.refl _)).symm
    rw [hanswer, if_neg hpresent, if_neg hpresent]

theorem loadFolder_congr {directory : Text} {s : Session}
    (h : AnswerAlike p.files files' (loadFolder p directory s).2.accesses) :
    loadFolder (p.on files') directory s = loadFolder p directory s := by
  have hentered := h.before (evolves_crawl directory p.settings.packageDepth _)
  have hanswer : (p.on files').files.read (Path.join directory Manifest.fileName) =
      p.files.read (Path.join directory Manifest.fileName) :=
    (hentered.note (evolves_registerEntry (hasSuffix_entryPath directory _) _)).symm
  have hmanifest : readManifest (p.on files') directory s = readManifest p directory s := by
    rw [readManifest, readManifest, hanswer]
  have hentry := registerEntry_congr (hasSuffix_entryPath directory _) hentered
  have hcrawl := crawl_congr h
  unfold loadFolder
  dsimp only [Project.settings_on]
  rw [hmanifest, hentry, hcrawl]

/-- The directories of a package's stubs, one for each type root. -/
def stubsOf (s : Session) (name : Text) : List Text :=
  s.config.options.typeRoots.map (fun root => Path.join root (Specifier.stubName name))

theorem evolves_loadFresh_of_firstPresent (name : Text) (s : Session) :
    Evolves p (firstPresent p (s.stubsOf name) s).2 (loadFresh p name s).2 := by
  unfold loadFresh stubsOf
  dsimp only
  split
  · exact evolves_crawl _ _ _
  split
  · exact (evolves_note _ _).trans (evolves_loadFolder _ _)
  · exact evolves_note _ _

theorem loadFresh_congr {name : Text} {s : Session}
    (h : AnswerAlike p.files files' (loadFresh p name s).2.accesses) :
    loadFresh (p.on files') name s = loadFresh p name s := by
  have hfirst : firstPresent (p.on files') (s.stubsOf name) s = firstPresent p (s.stubsOf name) s :=
    firstPresent_congr (h.before (evolves_loadFresh_of_firstPresent name s))
  unfold loadFresh at h ⊢
  rw [← stubsOf] at h ⊢
  dsimp only [Project.settings_on] at h ⊢
  rw [hfirst]
  cases hstub : (firstPresent p (s.stubsOf name) s).1 with
  | some directory =>
    rw [hstub] at h
    dsimp only
    rw [crawl_congr h]
  | none =>
    rw [hstub] at h
    dsimp only at h ⊢
    by_cases hpresent : p.files.present (Path.join p.settings.packageRoot name) = true
    · rw [if_pos hpresent] at h
      have hanswer : (p.on files').files.present (Path.join p.settings.packageRoot name) = true :=
        (h.note (evolves_loadFolder _ _)).symm.trans hpresent
      rw [if_pos hanswer, if_pos hpresent, loadFolder_congr h]
    · rw [if_neg hpresent] at h
      have hanswer : (p.on files').files.present (Path.join p.settings.packageRoot name) =
          p.files.present (Path.join p.settings.packageRoot name) := (h.note (.refl _)).symm
      rw [hanswer, if_neg hpresent, if_neg hpresent]

theorem loadPackage_congr {name : Text} {s : Session}
    (h : AnswerAlike p.files files' (loadPackage p name s).2.accesses) :
    loadPackage (p.on files') name s = loadPackage p name s := by
  unfold loadPackage at h ⊢
  split
  · rfl
  · next hloaded =>
    rw [if_neg hloaded] at h
    exact loadFresh_congr h

theorem loadEach_congr {names : List Text} {s : Session}
    (h : AnswerAlike p.files files' (loadEach p names s).accesses) :
    loadEach (p.on files') names s = loadEach p names s := by
  induction names generalizing s with
  | nil => rfl
  | cons name names ih =>
    have hfirst : loadPackage (p.on files') name s = loadPackage p name s :=
      loadPackage_congr (h.before (evolves_loadEach names _))
    have hrest := ih (s := (loadPackage p name s).2) h
    rw [loadEach, List.foldl_cons, hfirst]
    exact hrest

theorem loadTypeRoot_congr {root : Text} {s : Session}
    (h : AnswerAlike p.files files' (loadTypeRoot p s root).accesses) :
    loadTypeRoot (p.on files') s root = loadTypeRoot p s root := by
  unfold loadTypeRoot at h ⊢
  dsimp only at h ⊢
  cases hlist : p.files.list root with
  | error fault =>
    rw [hlist] at h
    have hanswer : (p.on files').files.list root = .error fault :=
      (h.note (.refl _)).symm.trans hlist
    rw [hanswer]
  | ok entries =>
    rw [hlist] at h
    have hanswer : (p.on files').files.list root = .ok entries :=
      (h.note (evolves_loadEach _ _)).symm.trans hlist
    rw [hanswer]
    exact loadEach_congr h

theorem preload_congr {s : Session}
    (h : AnswerAlike p.files files' (preload p s).2.accesses) :
    preload (p.on files') s = preload p s := by
  have hfold {roots : List Text} {s : Session}
      (h : AnswerAlike p.files files' (roots.foldl (loadTypeRoot p) s).accesses) :
      roots.foldl (loadTypeRoot (p.on files')) s = roots.foldl (loadTypeRoot p) s := by
    induction roots generalizing s with
    | nil => rfl
    | cons root roots ih =>
      rw [List.foldl_cons, List.foldl_cons,
        loadTypeRoot_congr (h.before (Evolves.foldl evolves_loadTypeRoot roots _))]
      exact ih h
  have hfirst : loadEach (p.on files') p.settings.priorityPackages s =
      loadEach p p.settings.priorityPackages s :=
    loadEach_congr (h.before (Evolves.foldl evolves_loadTypeRoot _ _))
  unfold preload
  dsimp only [Project.settings_on]
  rw [hfirst, hfold h]

theorem loadMentioned_congr {names : List Text} {s : Session}
    (h : AnswerAlike p.files files' (loadMentioned p names s).2.accesses) :
    loadMentioned (p.on files') names s = loadMentioned p names s := by
  induction names generalizing s with
  | nil => rfl
  | cons name names ih =>
    have hfirst : loadPackage (p.on files') name { s with discovered := names } =
        loadPackage p name { s with discovered := names } :=
      loadPackage_congr (h.before (evolves_loadMentioned names _))
    have hrest := ih (s := (loadPackage p name { s with discovered := names }).2) h
    rw [loadMentioned, loadMentioned, hfirst, hrest]

theorem loadDiscovered_congr {s : Session}
    (h : AnswerAlike p.files files' (loadDiscovered p s).2.accesses) :
    loadDiscovered (p.on files') s = loadDiscovered p s :=
  loadMentioned_congr h

/-! ## Operations -/

@[simp] theorem advance_accesses (s : Session) (phase : Phase) :
    (s.advance phase).accesses = s.accesses := by
  unfold advance
  split <;> rfl

theorem configure_accesses_grow (p : Project) (s : Session) :
    s.accesses <:+ (configure p s).accesses := by
  unfold configure
  dsimp only
  split
  · rw [advance_accesses]
    exact List.suffix_append _ _
  · exact List.suffix_refl _

theorem configure_congr {s : Session}
    (h : AnswerAlike p.files files' (configure p s).accesses) :
    configure (p.on files') s = configure p s := by
  unfold configure at h ⊢
  dsimp only at h ⊢
  by_cases hphase : s.phase = .uninitialized
  · rw [if_pos hphase, advance_accesses] at h
    have hload := Config.load_congr (fun a ha => h a (List.mem_append_left _ ha))
    rw [if_pos hphase, if_pos hphase, Project.files_on, Project.settings_on, hload]
  · rw [if_neg hphase, if_neg hphase]

theorem start_congr {entry : Text} {s : Session}
    (h : AnswerAlike p.files files' (start p entry s).2.accesses) :
    start (p.on files') entry s = start p entry s := by
  have hfinished : AnswerAlike p.files files'
      (loadDiscovered p (loadSource p entry 0 (preload p (configure p s)).2).2).2.accesses := by
    simpa [start] using h
  have hloaded := hfinished.before (evolves_loadDiscovered _)
  have hpreloaded := hloaded.before (evolves_loadSource _ _ _)
  have hconfigured := hpreloaded.before (evolves_preload _)
  unfold start
  dsimp only
  rw [configure_congr hconfigured, preload_congr hpreloaded, loadSource_congr hloaded,
    loadDiscovered_congr hfinished]

theorem activate_congr {path : Text} {s : Session}
    (h : AnswerAlike p.files files' (activate p path s).2.accesses) :
    activate (p.on files') path s = activate p path s := by
  have hconfigured := h.before (evolves_loadSource path 0 _)
  unfold activate
  rw [configure_congr hconfigured, loadSource_congr h]

theorem perform_accesses_grow (p : Project) (s : Session) (operation : Operation) :
    s.accesses <:+ (perform p s operation).2.accesses := by
  refine perform_invariant (I := fun t => s.accesses <:+ t.accesses)
    (fun hchange ht => ht.trans hchange.evolves.accesses_grow)
    (fun ht => ht.trans (configure_accesses_grow p _)) (fun phase ht => ?_) (fun _ _ ht => ?_)
    (List.suffix_refl _)
  · rwa [advance_accesses]
  · rwa [register_accesses]

/-- An operation that gets the same answers does the same. -/
theorem perform_congr {s : Session} {operation : Operation}
    (h : AnswerAlike p.files files' (perform p s operation).2.accesses) :
    perform (p.on files') s operation = perform p s operation := by
  cases operation with
  | configure => exact congrArg (Prod.mk Answer.done) (configure_congr h)
  | start entry => exact congrArg (Prod.map Answer.load id) (start_congr h)
  | activate path => exact congrArg (Prod.map Answer.load id) (activate_congr h)
  | loadSource path depth => exact congrArg (Prod.map Answer.load id) (loadSource_congr h)
  | probe stem => exact congrArg (Prod.map Answer.probed id) (probeEach_congr h)
  | loadPackage name => exact congrArg (Prod.map Answer.package id) (loadPackage_congr h)
  | preload => exact congrArg (Prod.map Answer.count id) (preload_congr h)
  | loadDiscovered => exact congrArg (Prod.map Answer.count id) (loadDiscovered_congr h)
  | crawl path depth => exact congrArg (Prod.map Answer.crawled id) (crawl_congr h)
  | register path content => rfl

/-- The answers to a list of operations, each with the session after it. -/
def transcript (p : Project) (s : Session) : List Operation → List (Answer × Session)
  | [] => []
  | operation :: operations =>
    perform p s operation :: transcript p (perform p s operation).2 operations

theorem run_accesses_grow (p : Project) (s : Session) (operations : List Operation) :
    s.accesses <:+ (run p s operations).accesses :=
  run_invariant (I := fun t => s.accesses <:+ t.accesses)
    (fun operation _ _ ht => ht.trans (perform_accesses_grow p _ operation)) (List.suffix_refl _)

/-- A run whose questions are answered alike is the same, operation by operation. -/
theorem transcript_congr {s : Session} {operations : List Operation}
    (h : AnswerAlike p.files files' (run p s operations).accesses) :
    transcript (p.on files') s operations = transcript p s operations := by
  induction operations generalizing s with
  | nil => rfl
  | cons operation operations ih =>
    have hrest : AnswerAlike p.files files' (run p (perform p s operation).2 operations).accesses :=
      h
    have hfirst := perform_congr (hrest.mono (run_accesses_grow p _ operations))
    rw [transcript, transcript, hfirst, ih hrest]

end Session

end SourceClosure
