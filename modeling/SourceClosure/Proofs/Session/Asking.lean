import SourceClosure.Proofs.Session.Load
import SourceClosure.Proofs.Session.Stray
import SourceClosure.Proofs.Store.Confined

/-!
# The paths that are put to the store

Every path that a run puts to its store is a project path or stray (`Session.run_asks`). The
invariant also says what the session works on: a configuration that the project may have, and
packages that it may need.
-/

namespace SourceClosure

variable {p : Project} {operations : List Operation}

/-! ## Invariant -/

/-- What holds throughout a run: the configuration is one of the two that it may be, the packages
that wait may be needed, and all questions so far were about paths that may be put to the store. -/
structure Asking (p : Project) (operations : List Operation) (s : Session) : Prop where
  config : p.MayConfigure s.config
  discovered : ∀ name ∈ s.discovered, MayNeed p operations name
  asks : AsksWell p operations s.accesses

namespace Asking

open Session

variable {s : Session}

theorem note (h : Asking p operations s) {a : Access} (ha : MayAsk p operations a.path) :
    Asking p operations (s.note a) :=
  ⟨h.config, h.discovered, h.asks.cons ha⟩

theorem register (h : Asking p operations s) (path content : Text) :
    Asking p operations (s.register p path content).2 := by
  unfold Session.register
  dsimp only
  split
  · exact h
  · exact ⟨h.config, h.discovered, h.asks⟩

theorem discover (h : Asking p operations s) {package : Text}
    (hpackage : MayNeed p operations package) : Asking p operations (discover package s) := by
  unfold Session.discover
  split
  · exact h
  · refine ⟨h.config, fun name hname => ?_, h.asks⟩
    rcases List.mem_append.1 hname with hname | hname
    · exact h.discovered name hname
    · exact List.mem_singleton.1 hname ▸ hpackage

/-! ## Sources -/

theorem probeEach (h : Asking p operations s) {candidates : List Text}
    (hcandidates : ∀ c ∈ candidates, MayAsk p operations c) :
    Asking p operations (probeEach p candidates s).2 := by
  induction candidates generalizing s with
  | nil => exact h
  | cons c candidates ih =>
    obtain ⟨hc, hcandidates⟩ := List.forall_mem_cons.1 hcandidates
    have hnote := h.note (a := .isFile c) hc
    unfold Session.probeEach
    split
    · exact hnote
    · exact ih hnote hcandidates

section Feed

variable {load : Text → Session → LoadOutcome × Session} {path content : Text}

/-- Following a specifier loads stems that a run may load, or notes a package that it may need. -/
theorem follow (hload : ∀ stem s, MayLoad p operations stem → Asking p operations s →
      Asking p operations (load stem s).2)
    (hname : Path.NamesFile path) (hread : p.files.read path = .ok content) {specifier : Text}
    (hspecifier : specifier ∈ p.specifiersIn content) (h : Asking p operations s) :
    Asking p operations (follow load (Path.directory path) s specifier) := by
  by_cases hkind : Specifier.kind s.aliases specifier = .external
  · rw [follow_eq_discover hkind]
    exact h.discover (.specifier hread hspecifier h.config hkind)
  · rw [follow_eq_loadFirst hkind]
    refine loadFirst_invariant (fun call hcall ht => ?_) h
    obtain ⟨before, after, hstems, -⟩ := exists_of_mem_firstCalls hcall
    refine hload _ _ (.specifier hname hread hspecifier h.config ?_) ht
    rw [← Session.aliases, hstems]
    exact List.mem_append_right _ List.mem_cons_self

theorem feed (hload : ∀ stem s, MayLoad p operations stem → Asking p operations s →
      Asking p operations (load stem s).2)
    (hname : Path.NamesFile path) (hread : p.files.read path = .ok content)
    (h : Asking p operations s) : Asking p operations (feed p load path content s) := by
  have hfold {specifiers : List Text}
      (hspecifiers : ∀ specifier ∈ specifiers, specifier ∈ p.specifiersIn content) {s : Session}
      (h : Asking p operations s) :
      Asking p operations (specifiers.foldl (Session.follow load (Path.directory path)) s) := by
    induction specifiers generalizing s with
    | nil => exact h
    | cons specifier specifiers ih =>
      obtain ⟨hspecifier, hspecifiers⟩ := List.forall_mem_cons.1 hspecifiers
      exact ih hspecifiers (follow hload hname hread hspecifier h)
  have hregister := h.register path content
  unfold Session.feed
  dsimp only
  split
  · exact hfold (fun _ hspecifier => hspecifier) hregister
  · exact hregister

end Feed

theorem loadWithin (h : Asking p operations s) (room : Nat) {stem : Text}
    (hstem : MayLoad p operations stem) :
    Asking p operations (loadWithin p room stem s).2 := by
  induction room generalizing stem s with
  | zero => exact h
  | succ room ih =>
    have hprobe := h.probeEach (fun _ hc => hstem.mayAsk hc)
    unfold Session.loadWithin
    dsimp only
    split
    · exact h
    split
    · exact hprobe
    next c hc =>
    rw [probe_fst] at hc
    split
    · exact hprobe
    have hread := hprobe.note (a := .read c) (hstem.mayAsk (Project.mem_candidates_of_probed? hc))
    split
    · exact hread
    next content hcontent =>
    exact feed (fun _ _ hstem h => ih h hstem)
      (Project.namesFile_of_probed? hstem.toProject hc) hcontent hread

theorem loadSource (h : Asking p operations s) {operation : Operation} {path : Text}
    (hoperation : operation ∈ operations) (hpath : operation.source? = some path) (depth : Nat) :
    Asking p operations (loadSource p path depth s).2 :=
  h.loadWithin _ (.entry hoperation hpath)

/-! ## Directories -/

theorem crawlFile {c : Crawl} (h : Asking p operations c.2) {path : Text}
    (hpath : Path.toProject path = path) : Asking p operations (crawlFile p path c).2 := by
  have hread := h.note (a := .read path) (.inl hpath)
  unfold Session.crawlFile
  dsimp only
  split
  · exact hread
  · split
    · exact hread
    · exact hread.register path _

section Enter

variable {enter : Option (Text → Crawl → Crawl)}
  (henter : ∀ f ∈ enter, ∀ path c, Path.toProject path = path → Asking p operations c.2 →
    Asking p operations (f path c).2)
  {directory : Text} (hdirectory : Path.toProject directory = directory)

include henter hdirectory

/-- What is searched below a directory is a project path, and so is what is read there. -/
theorem crawlEntry {e : Entry} (he : ¬ Path.FromRoot e.name) {c : Crawl}
    (h : Asking p operations c.2) : Asking p operations (crawlEntry p enter directory c e).2 := by
  have hpath := Path.toProject_join (Path.not_fromRoot_of_toProject hdirectory) he
  unfold Session.crawlEntry
  dsimp only
  split
  · exact h
  split
  · split
    · exact h
    · split
      · exact h
      · exact henter _ rfl _ c hpath h
  · split
    · exact h.crawlFile hpath
    · exact h

theorem crawlFolder (hnames : p.files.ListsNames) {c : Crawl} (h : Asking p operations c.2) :
    Asking p operations (crawlFolder p enter directory c).2 := by
  have hfold {entries : List Entry} (hentries : ∀ e ∈ entries, ¬ Path.FromRoot e.name) {c : Crawl}
      (h : Asking p operations c.2) :
      Asking p operations (entries.foldl (Session.crawlEntry p enter directory) c).2 := by
    induction entries generalizing c with
    | nil => exact h
    | cons e entries ih =>
      obtain ⟨he, hentries⟩ := List.forall_mem_cons.1 hentries
      exact ih hentries (crawlEntry henter hdirectory he h)
  have hlist := h.note (a := .list directory) (.inl hdirectory)
  unfold Session.crawlFolder
  dsimp only
  split
  · exact hlist
  · next entries hentries =>
    exact hfold (c := (c.1, c.2.note (.list directory))) (hnames directory entries hentries) hlist

end Enter

theorem crawlWithin (hnames : p.files.ListsNames) {depth : Nat} {path : Text}
    (hpath : Path.toProject path = path) {c : Crawl} (h : Asking p operations c.2) :
    Asking p operations (crawlWithin p depth path c).2 := by
  induction depth generalizing path c with
  | zero => exact crawlFolder (by simp) hpath hnames h
  | succ depth ih =>
    refine crawlFolder (fun f hf path c hpath h => ?_) hpath hnames h
    obtain rfl := Option.some_inj.1 hf
    exact ih hpath h

theorem crawl (h : Asking p operations s) (hnames : p.files.ListsNames) (path : Text)
    (depth : Nat) : Asking p operations (crawl p path depth s).2 :=
  crawlWithin hnames (Path.toProject_toProject path) (c := ({}, s)) h

/-! ## Packages -/

theorem firstPresent (h : Asking p operations s) {directories : List Text}
    (hdirectories : ∀ d ∈ directories, MayAsk p operations d) :
    Asking p operations (firstPresent p directories s).2 := by
  induction directories generalizing s with
  | nil => exact h
  | cons d directories ih =>
    obtain ⟨hd, hdirectories⟩ := List.forall_mem_cons.1 hdirectories
    have hnote := h.note (a := .present d) hd
    unfold Session.firstPresent
    split
    · exact hnote
    · exact ih hnote hdirectories

theorem registerEntry (h : Asking p operations s) {path : Text} (hpath : MayAsk p operations path) :
    Asking p operations (registerEntry p path s) := by
  have hpresent := h.note (a := .present path) hpath
  unfold Session.registerEntry
  dsimp only
  split
  · have hread := hpresent.note (a := .read path) hpath
    split
    · exact hread.register path _
    · exact hread
  · exact hpresent

theorem loadFolder (h : Asking p operations s) (hnames : p.files.ListsNames) {package : Text}
    (hpackage : MayNeed p operations package) :
    Asking p operations (loadFolder p (p.folderOf package) s).2 := by
  have hmanifest : Asking p operations (readManifest p (p.folderOf package) s).2 :=
    h.note (hpackage.mayAsk (by simp [Project.pathsOf, Access.path]))
  have hentry : MayAsk p operations
      (entryPath (p.folderOf package) (p.manifestAt (p.folderOf package))) :=
    hpackage.mayAsk (by simp [Project.pathsOf])
  exact (hmanifest.registerEntry hentry).crawl hnames _ _

theorem loadPackage (h : Asking p operations s) (hnames : p.files.ListsNames) {package : Text}
    (hpackage : MayNeed p operations package) :
    Asking p operations (loadPackage p package s).2 := by
  unfold Session.loadPackage
  split
  · exact h
  have htake : Asking p operations { s with
      loaded := package :: s.loaded, discovered := s.discovered.erase package } :=
    ⟨h.config, fun name hname => h.discovered name (List.mem_of_mem_erase hname), h.asks⟩
  have hstubs : ∀ d ∈ s.config.options.typeRoots.map (fun root =>
      Path.join root (Specifier.stubName package)), MayAsk p operations d := by
    intro d hd
    obtain ⟨root, hroot, rfl⟩ := List.mem_map.1 hd
    exact hpackage.mayAsk_stubs h.config hroot
  have hfirst := htake.firstPresent hstubs
  unfold loadFresh
  dsimp only
  split
  · exact hfirst.crawl hnames _ _
  · have hpresent := hfirst.note (a := .present (p.folderOf package))
      (hpackage.mayAsk List.mem_cons_self)
    split
    · exact hpresent.loadFolder hnames hpackage
    · exact hpresent

theorem loadEach (h : Asking p operations s) (hnames : p.files.ListsNames) {names : List Text}
    (hneed : ∀ name ∈ names, MayNeed p operations name) :
    Asking p operations (loadEach p names s) := by
  induction names generalizing s with
  | nil => exact h
  | cons name names ih =>
    obtain ⟨hname, hneed⟩ := List.forall_mem_cons.1 hneed
    exact ih (h.loadPackage hnames hname) hneed

theorem loadTypeRoot (h : Asking p operations s) (hnames : p.files.ListsNames) {c : Config}
    (hc : p.MayConfigure c) {root : Text} (hroot : root ∈ c.options.typeRoots) :
    Asking p operations (loadTypeRoot p s root) := by
  have hnote := h.note (a := .list root) (.inl (hc.rootsInProject root hroot))
  unfold Session.loadTypeRoot
  dsimp only
  split
  · exact hnote
  · next entries hentries =>
    exact hnote.loadEach hnames (fun _ hname => .stubs hc hroot hentries hname)

theorem preload (h : Asking p operations s) (hnames : p.files.ListsNames) :
    Asking p operations (preload p s).2 := by
  have hfold {c : Config} (hc : p.MayConfigure c) {roots : List Text}
      (hroots : ∀ root ∈ roots, root ∈ c.options.typeRoots) {s : Session}
      (h : Asking p operations s) :
      Asking p operations (roots.foldl (Session.loadTypeRoot p) s) := by
    induction roots generalizing s with
    | nil => exact h
    | cons root roots ih =>
      obtain ⟨hroot, hroots⟩ := List.forall_mem_cons.1 hroots
      exact ih hroots (h.loadTypeRoot hnames hc hroot)
  have hfirst : Asking p operations (Session.loadEach p p.settings.priorityPackages s) :=
    h.loadEach hnames (fun _ hname => .priority hname)
  exact hfold hfirst.config (fun _ hroot => hroot) hfirst

theorem loadMentioned (h : Asking p operations s) (hnames : p.files.ListsNames)
    {names : List Text} (hneed : ∀ name ∈ names, MayNeed p operations name) :
    Asking p operations (loadMentioned p names s).2 := by
  induction names generalizing s with
  | nil => exact h
  | cons name names ih =>
    obtain ⟨hname, hneed⟩ := List.forall_mem_cons.1 hneed
    have hrequeue : Asking p operations { s with discovered := names } :=
      ⟨h.config, hneed, h.asks⟩
    exact ih (hrequeue.loadPackage hnames hname) hneed

theorem loadDiscovered (h : Asking p operations s) (hnames : p.files.ListsNames) :
    Asking p operations (loadDiscovered p s).2 :=
  h.loadMentioned hnames h.discovered

/-! ## Operations -/

theorem advance (h : Asking p operations s) (phase : Phase) :
    Asking p operations (s.advance phase) := by
  unfold Session.advance
  split
  · exact ⟨h.config, h.discovered, h.asks⟩
  · exact h

theorem configure (h : Asking p operations s) : Asking p operations (configure p s) := by
  unfold Session.configure
  dsimp only
  split
  · have hloaded : Asking p operations { s with
        config := (Config.load p.files p.settings.packageRoot).1
        engine := s.engine.configure (Config.load p.files p.settings.packageRoot).1.options
        accesses := (Config.load p.files p.settings.packageRoot).2 ++ s.accesses } := by
      refine ⟨.inr rfl, h.discovered, fun a ha => ?_⟩
      exact (List.mem_append.1 ha).elim (Config.asksWell_load a) (h.asks a)
    exact hloaded.advance .configured
  · exact h

theorem perform (h : Asking p operations s) (hnames : p.files.ListsNames) {operation : Operation}
    (hoperation : operation ∈ operations) : Asking p operations (perform p s operation).2 := by
  cases operation with
  | configure => exact h.configure
  | start entry =>
    have hloaded := (h.configure.preload hnames).loadSource hoperation rfl 0
    exact (hloaded.loadDiscovered hnames).advance .ready
  | activate path => exact h.configure.loadSource hoperation rfl 0
  | loadSource path depth => exact h.loadSource hoperation rfl depth
  | probe stem => exact h.probeEach (fun _ hc => .inr (.probed hoperation hc))
  | loadPackage name => exact h.loadPackage hnames (.operation hoperation)
  | preload => exact h.preload hnames
  | loadDiscovered => exact h.loadDiscovered hnames
  | crawl path depth => exact h.crawl hnames path depth
  | register path content => exact h.register path content

end Asking

/-! ## Main result -/

/-- If no listing holds a name that starts at the root of a file system, every path that a run puts
to the store is a project path or stray. -/
theorem Session.run_asks (hnames : p.files.ListsNames) (operations : List Operation) :
    ∀ a ∈ (run p new operations).accesses,
      Path.toProject a.path = a.path ∨ Stray p operations a.path := by
  have hnew : Asking p operations new :=
    ⟨.inl rfl, (fun name hname => nomatch hname), (fun a ha => nomatch ha)⟩
  exact (run_invariant (fun _ hoperation {_} h => h.perform hnames hoperation) hnew).asks

end SourceClosure
