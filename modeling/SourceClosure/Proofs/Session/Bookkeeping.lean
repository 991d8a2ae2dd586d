import Mathlib.Data.List.Nodup
import SourceClosure.Proofs.Session.Activation
import SourceClosure.Proofs.Session.Lifecycle
import SourceClosure.Proofs.Session.Mentioned
import SourceClosure.Proofs.Session.Preload

/-!
# Which packages are asked for

A session keeps two lists of packages: those that were asked for, and a queue of those that sources
mention and that were not. Both are written to from several places, in whatever order the operations
come. A package that is asked for leaves the queue in the same step (`Session.Takes`), and one that
was asked for never gets into it (`Session.Notes`), so the two stay disjoint and no package is asked
for twice.
-/

namespace SourceClosure

namespace Session

variable {p : Project} {s t u : Session}

/-! ## Calls for packages -/

/-- A package that was asked for, and the answer. -/
structure PackageCall where
  name : Text
  outcome : PackageOutcome
  deriving DecidableEq, Repr

/-- The calls that are made when the packages of a list are loaded. -/
def eachCalls (p : Project) : List Text → Session → List PackageCall
  | [], _ => []
  | name :: names, s =>
    let result := loadPackage p name s
    ⟨name, result.1⟩ :: eachCalls p names result.2

/-- The calls that are made for the stubs in a type root. -/
def rootCalls (p : Project) (root : Text) (s : Session) : List PackageCall :=
  match p.files.list root with
  | .error _ => []
  | .ok entries => eachCalls p (stubPackages entries) (s.note (.list root))

/-- The calls that are made for the stubs in a list of type roots. -/
def rootsCalls (p : Project) : List Text → Session → List PackageCall
  | [], _ => []
  | root :: roots, s => rootCalls p root s ++ rootsCalls p roots (loadTypeRoot p s root)

/-- The calls that are made in advance. -/
def preloadCalls (p : Project) (s : Session) : List PackageCall :=
  let first := loadEach p p.settings.priorityPackages s
  eachCalls p p.settings.priorityPackages s ++ rootsCalls p first.config.options.typeRoots first

/-- The calls that are made for the packages of a list that sources mention. -/
def mentionedCalls (p : Project) : List Text → Session → List PackageCall
  | [], _ => []
  | name :: names, s =>
    let result := loadPackage p name { s with discovered := names }
    ⟨name, result.1⟩ :: mentionedCalls p names result.2

/-- The calls that an operation makes. -/
def packageCalls (p : Project) (s : Session) : Operation → List PackageCall
  | .start entry =>
    let configured := configure p s
    let loaded := (loadSource p entry 0 (preload p configured).2).2
    preloadCalls p configured ++ mentionedCalls p loaded.discovered loaded
  | .loadPackage name => [⟨name, (loadPackage p name s).1⟩]
  | .preload => preloadCalls p s
  | .loadDiscovered => mentionedCalls p s.discovered s
  | _ => []

/-- The calls that a run over changing files makes. -/
def runPackageCalls (p : Project) : Session → List (Store × Operation) → List PackageCall
  | _, [] => []
  | s, step :: steps =>
    packageCalls (p.on step.1) s step.2 ++
      runPackageCalls p (perform (p.on step.1) s step.2).2 steps

/-- The packages that were asked for the first time by a list of calls, in order. -/
def taken (calls : List PackageCall) : List Text :=
  (calls.filter (fun c => c.outcome ≠ .alreadyLoaded)).map PackageCall.name

@[simp] theorem taken_nil : taken [] = [] :=
  rfl

@[simp] theorem taken_append (calls more : List PackageCall) :
    taken (calls ++ more) = taken calls ++ taken more := by
  simp [taken]

theorem taken_of_ne {c : PackageCall} (h : c.outcome ≠ .alreadyLoaded) : taken [c] = [c.name] := by
  simp [taken, h]

theorem length_filter_eq_count_taken (calls : List PackageCall) (name : Text) :
    (calls.filter (fun c => c.name = name ∧ c.outcome ≠ .alreadyLoaded)).length =
      (taken calls).count name := by
  rw [taken, List.count, List.countP_map, List.countP_filter, List.countP_eq_length_filter]
  refine congrArg List.length (List.filter_congr fun c _ => ?_)
  by_cases h : c.name = name <;> simp [h]

/-! ## Two lists of packages -/

/-- No package is in one of the lists twice or in both. -/
structure Tidy (s : Session) : Prop where
  loaded : s.loaded.Nodup
  discovered : s.discovered.Nodup
  disjoint : s.discovered.Disjoint s.loaded

theorem tidy_new : Tidy new :=
  ⟨List.nodup_nil, List.nodup_nil, List.disjoint_nil_left _⟩

theorem Notes.tidy {named : Text → Prop} (h : Notes named s t) (hs : Tidy s) : Tidy t where
  loaded := h.loaded ▸ hs.loaded
  discovered := h.nodup hs.discovered
  disjoint n hn hloaded := by
    rw [h.loaded] at hloaded
    rcases (h.mem_iff n).1 hn with hn | ⟨-, hnew, -⟩
    · exact hs.disjoint hn hloaded
    · exact hnew hloaded

/-- The second session comes of the first by calls for packages: those that were asked for the first
time are in the one list now and no longer in the other. -/
structure Takes (calls : List PackageCall) (s t : Session) : Prop where
  loaded : t.loaded = (taken calls).reverse ++ s.loaded
  nodup : t.loaded.Nodup
  discovered : t.discovered = s.discovered.filter (· ∉ t.loaded)

namespace Takes

variable {calls more : List PackageCall}

/-- Calls that find everything asked for before. -/
theorem of_eq (hs : Tidy s) (hcalls : taken calls = []) (hloaded : t.loaded = s.loaded)
    (hdiscovered : t.discovered = s.discovered) : Takes calls s t where
  loaded := by simp [hcalls, hloaded]
  nodup := hloaded ▸ hs.loaded
  discovered := by
    rw [hdiscovered, hloaded, List.filter_eq_self.2]
    exact fun n hn => decide_eq_true (fun hloaded => hs.disjoint hn hloaded)

theorem tidy (h : Takes calls s t) (hs : Tidy s) : Tidy t where
  loaded := h.nodup
  discovered := h.discovered ▸ hs.discovered.filter _
  disjoint _ hn hloaded := by
    rw [h.discovered, List.mem_filter] at hn
    exact of_decide_eq_true hn.2 hloaded

theorem loaded_suffix (h : Takes calls s t) : s.loaded <:+ t.loaded :=
  h.loaded ▸ List.suffix_append _ _

theorem trans (h : Takes calls s t) (h' : Takes more t u) : Takes (calls ++ more) s u where
  loaded := by simp [h'.loaded, h.loaded]
  nodup := h'.nodup
  discovered := by
    rw [h'.discovered, h.discovered, List.filter_filter]
    refine List.filter_congr fun n _ => ?_
    have hkept : n ∈ t.loaded → n ∈ u.loaded := fun hn => h'.loaded_suffix.subset hn
    simpa using fun hn hloaded => hn (hkept hloaded)

end Takes

/-! ## One package -/

theorem loadFresh_ne_alreadyLoaded (p : Project) (name : Text) (s : Session) :
    (loadFresh p name s).1 ≠ .alreadyLoaded := by
  unfold loadFresh
  dsimp only
  split
  · nofun
  · split <;> nofun

theorem isLoaded_eq_false {name : Text} (h : name ∉ s.loaded) : s.isLoaded name = false := by
  simpa [isLoaded] using h

theorem taken_loadPackage (p : Project) {name : Text} (h : name ∉ s.loaded) :
    taken [⟨name, (loadPackage p name s).1⟩] = [name] := by
  refine taken_of_ne ?_
  rw [loadPackage_of_not_isLoaded (isLoaded_eq_false h)]
  exact loadFresh_ne_alreadyLoaded p name _

/-- A package that is asked for the first time. -/
theorem takes_loadPackage_of_not_mem (hs : Tidy s) {name : Text} (h : name ∉ s.loaded) :
    Takes [⟨name, (loadPackage p name s).1⟩] s (loadPackage p name s).2 := by
  have hbrings := brings_loadFresh (p := p) name (s.take name)
  rw [← loadPackage_of_not_isLoaded (isLoaded_eq_false h)] at hbrings
  refine ⟨?_, ?_, ?_⟩
  · rw [hbrings.loaded, taken_loadPackage p h]
    rfl
  · rw [hbrings.loaded]
    exact List.nodup_cons.2 ⟨h, hs.loaded⟩
  · rw [hbrings.discovered, hbrings.loaded]
    simp only [take, hs.discovered.erase_eq_filter]
    refine List.filter_congr fun n hn => ?_
    have hfree : n ∉ s.loaded := fun hloaded => hs.disjoint hn hloaded
    by_cases hname : n = name <;> simp [hname, hfree]

theorem takes_loadPackage (hs : Tidy s) (name : Text) :
    Takes [⟨name, (loadPackage p name s).1⟩] s (loadPackage p name s).2 := by
  by_cases h : name ∈ s.loaded
  · rw [loadPackage_of_isLoaded (isLoaded_iff.2 h)]
    exact .of_eq hs rfl rfl rfl
  · exact takes_loadPackage_of_not_mem hs h

/-! ## Many packages -/

theorem takes_loadEach (hs : Tidy s) (names : List Text) :
    Takes (eachCalls p names s) s (loadEach p names s) := by
  induction names generalizing s with
  | nil => exact .of_eq hs rfl rfl rfl
  | cons name names ih =>
    have hfirst := takes_loadPackage (p := p) hs name
    exact hfirst.trans (ih (hfirst.tidy hs))

theorem takes_loadTypeRoot (hs : Tidy s) (root : Text) :
    Takes (rootCalls p root s) s (loadTypeRoot p s root) := by
  unfold rootCalls
  cases hlist : p.files.list root with
  | error fault =>
    rw [loadTypeRoot_of_error hlist]
    exact .of_eq hs rfl rfl rfl
  | ok entries =>
    have hnote : Takes [] s (s.note (.list root)) := .of_eq hs rfl rfl rfl
    rw [loadTypeRoot_of_ok hlist]
    exact hnote.trans (takes_loadEach (hnote.tidy hs) (stubPackages entries))

theorem takes_foldl_loadTypeRoot (hs : Tidy s) (roots : List Text) :
    Takes (rootsCalls p roots s) s (roots.foldl (loadTypeRoot p) s) := by
  induction roots generalizing s with
  | nil => exact .of_eq hs rfl rfl rfl
  | cons root roots ih =>
    have hfirst := takes_loadTypeRoot (p := p) hs root
    exact hfirst.trans (ih (hfirst.tidy hs))

theorem takes_preload (hs : Tidy s) : Takes (preloadCalls p s) s (preload p s).2 := by
  have hfirst := takes_loadEach (p := p) hs p.settings.priorityPackages
  exact hfirst.trans (takes_foldl_loadTypeRoot (hfirst.tidy hs) _)

/-! ## Draining the queue -/

/-- One round of the loop that empties the queue: the first package is taken out and loaded, and the
files that were registered for it are added to a count. -/
def drainRound (p : Project) (c : Nat × Session) : Nat × Session :=
  match c.2.discovered with
  | [] => c
  | name :: names =>
    let result := loadPackage p name { c.2 with discovered := names }
    (c.1 + result.1.registered, result.2)

theorem drainRound_of_cons {name : Text} {names : List Text} (h : s.discovered = name :: names)
    (count : Nat) :
    let result := loadPackage p name { s with discovered := names }
    drainRound p (count, s) = (count + result.1.registered, result.2) := by
  simp [drainRound, h]

theorem drainRound_of_nil (h : s.discovered = []) (count : Nat) :
    drainRound p (count, s) = (count, s) := by
  simp [drainRound, h]

/-- Taking the first package out of the queue and loading it takes nothing else out. -/
theorem takes_first (hs : Tidy s) {name : Text} {names : List Text}
    (h : s.discovered = name :: names) :
    let result := loadPackage p name { s with discovered := names }
    Takes [⟨name, result.1⟩] s result.2 ∧ result.2.discovered = names := by
  intro result
  have hnodup := hs.discovered
  rw [h, List.nodup_cons] at hnodup
  have hfirst : name ∉ s.loaded := fun hloaded => hs.disjoint (h ▸ List.mem_cons_self) hloaded
  have hfree : ∀ n ∈ names, n ∉ s.loaded := fun n hn hloaded =>
    hs.disjoint (h ▸ List.mem_cons_of_mem _ hn) hloaded
  -- Out of the queue and not asked for yet, the package is in neither list for a moment.
  have hrest : Tidy { s with discovered := names } := ⟨hs.loaded, hnodup.2, hfree⟩
  have hresult : Takes [⟨name, result.1⟩] { s with discovered := names } result.2 :=
    takes_loadPackage_of_not_mem hrest hfirst
  have hloaded : result.2.loaded = name :: s.loaded := by
    have htaken : taken [⟨name, result.1⟩] = [name] :=
      taken_loadPackage (s := { s with discovered := names }) p hfirst
    rw [hresult.loaded, htaken]
    rfl
  have hnames : result.2.discovered = names := by
    rw [hresult.discovered, hloaded, List.filter_eq_self]
    intro n hn
    have hne : n ≠ name := fun heq => hnodup.1 (heq ▸ hn)
    simp [hne, hfree n hn]
  refine ⟨⟨hresult.loaded, hresult.nodup, ?_⟩, hnames⟩
  rw [h, List.filter_cons_of_neg (by simp [hloaded])]
  exact hresult.discovered

/-- Loading the packages that wait empties the queue. -/
theorem takes_loadDiscovered (hs : Tidy s) :
    Takes (mentionedCalls p s.discovered s) s (loadDiscovered p s).2 ∧
      (loadDiscovered p s).2.discovered = [] := by
  unfold loadDiscovered
  generalize hnames : s.discovered = names
  induction names generalizing s with
  | nil => exact ⟨.of_eq hs rfl rfl rfl, hnames⟩
  | cons name names ih =>
    obtain ⟨hfirst, hrest⟩ := takes_first (p := p) hs hnames
    obtain ⟨hothers, hempty⟩ := ih (hfirst.tidy hs) hrest
    exact ⟨hfirst.trans hothers, hempty⟩

/-- Every round of the loop takes the first package out of the queue and puts none in, so the loop
ends. -/
theorem iterate_drainRound_discovered (hs : Tidy s) (count k : Nat) :
    ((drainRound p)^[k] (count, s)).2.discovered = s.discovered.drop k := by
  induction k generalizing count s with
  | zero => rfl
  | succ k ih =>
    rw [Function.iterate_succ_apply]
    cases hnames : s.discovered with
    | nil =>
      rw [drainRound_of_nil hnames, ih hs, hnames, List.drop_nil, List.drop_nil]
    | cons name names =>
      obtain ⟨hfirst, hrest⟩ := takes_first (p := p) hs hnames
      rw [drainRound_of_cons hnames, ih (hfirst.tidy hs), hrest, List.drop_succ_cons]

/-- After as many rounds as packages wait, the loop has come to what loading them all comes to. -/
theorem iterate_drainRound_length (hs : Tidy s) (count : Nat) :
    (drainRound p)^[s.discovered.length] (count, s) =
      (count + (loadDiscovered p s).1, (loadDiscovered p s).2) := by
  unfold loadDiscovered
  generalize hnames : s.discovered = names
  induction names generalizing count s with
  | nil => rfl
  | cons name names ih =>
    obtain ⟨hfirst, hrest⟩ := takes_first (p := p) hs hnames
    rw [List.length_cons, Function.iterate_succ_apply, drainRound_of_cons hnames,
      ih (hfirst.tidy hs) _ hrest, Nat.add_assoc]
    rfl

/-! ## Operations -/

/-- The second session comes of the first by calls for packages: those that were asked for the first
time are in the list now, and what was known before is still known. -/
structure Accounts (calls : List PackageCall) (s t : Session) : Prop where
  tidy : Tidy t
  loaded : t.loaded = (taken calls).reverse ++ s.loaded
  known : ∀ n, n ∈ s.discovered ∨ n ∈ s.loaded → n ∈ t.discovered ∨ n ∈ t.loaded

namespace Accounts

variable {calls more : List PackageCall}

theorem of_eq (hs : Tidy s) (hloaded : t.loaded = s.loaded)
    (hdiscovered : t.discovered = s.discovered) : Accounts [] s t where
  tidy := ⟨hloaded ▸ hs.loaded, hdiscovered ▸ hs.discovered,
    hloaded ▸ hdiscovered ▸ hs.disjoint⟩
  loaded := hloaded
  known := by
    rw [hloaded, hdiscovered]
    exact fun _ => id

theorem trans (h : Accounts calls s t) (h' : Accounts more t u) :
    Accounts (calls ++ more) s u where
  tidy := h'.tidy
  loaded := by simp [h'.loaded, h.loaded]
  known n hn := h'.known n (h.known n hn)

end Accounts

theorem Takes.accounts {calls : List PackageCall} (h : Takes calls s t) (hs : Tidy s) :
    Accounts calls s t where
  tidy := h.tidy hs
  loaded := h.loaded
  known n := by
    rintro (hn | hn)
    · by_cases hloaded : n ∈ t.loaded
      · exact .inr hloaded
      · rw [h.discovered]
        exact .inl (List.mem_filter.2 ⟨hn, decide_eq_true hloaded⟩)
    · exact .inr (h.loaded_suffix.subset hn)

theorem Notes.accounts {named : Text → Prop} (h : Notes named s t) (hs : Tidy s) :
    Accounts [] s t where
  tidy := h.tidy hs
  loaded := h.loaded
  known _ hn := hn.imp (fun hn => h.grows.subset hn) (fun hn => h.loaded ▸ hn)

theorem configure_packages (p : Project) (s : Session) :
    (configure p s).loaded = s.loaded ∧ (configure p s).discovered = s.discovered := by
  by_cases h : s.phase = .uninitialized
  · rw [configure_of_uninitialized p h]
    exact ⟨rfl, rfl⟩
  · rw [configure_of_ne p h]
    exact ⟨rfl, rfl⟩

theorem advance_packages (s : Session) (phase : Phase) :
    (s.advance phase).loaded = s.loaded ∧ (s.advance phase).discovered = s.discovered := by
  obtain ⟨later, h⟩ := exists_advance_eq s phase
  rw [h]
  exact ⟨rfl, rfl⟩

theorem accounts_configure (hs : Tidy s) : Accounts [] s (configure p s) :=
  .of_eq hs (configure_packages p s).1 (configure_packages p s).2

theorem accounts_advance (hs : Tidy s) (phase : Phase) : Accounts [] s (s.advance phase) :=
  .of_eq hs (advance_packages s phase).1 (advance_packages s phase).2

theorem accounts_loadSource (hs : Tidy s) (path : Text) (depth : Nat) :
    Accounts [] s (loadSource p path depth s).2 :=
  (Request.notes_result p (.ofSource p path depth s)).accounts hs

/-- A start up to the point where the packages that wait are loaded. -/
theorem accounts_start (hs : Tidy s) (entry : Text) :
    Accounts (preloadCalls p (configure p s)) s
      (loadSource p entry 0 (preload p (configure p s)).2).2 := by
  have hconfigure := accounts_configure (p := p) hs
  have hpreload := (takes_preload (p := p) hconfigure.tidy).accounts hconfigure.tidy
  have hload := accounts_loadSource (p := p) hpreload.tidy entry 0
  simpa using (hconfigure.trans hpreload).trans hload

/-- Every operation keeps the two lists apart, and accounts for what it asks for. -/
theorem accounts_perform (hs : Tidy s) (operation : Operation) :
    Accounts (packageCalls p s operation) s (perform p s operation).2 := by
  cases operation with
  | configure => exact accounts_configure hs
  | start entry =>
    have hload := accounts_start (p := p) hs entry
    have hdrain := (takes_loadDiscovered (p := p) hload.tidy).1.accounts hload.tidy
    have hready := accounts_advance hdrain.tidy .ready
    simpa [packageCalls, perform, start] using (hload.trans hdrain).trans hready
  | activate path =>
    have hconfigure := accounts_configure (p := p) hs
    exact hconfigure.trans (accounts_loadSource hconfigure.tidy path 0)
  | loadSource path depth => exact accounts_loadSource hs path depth
  | probe stem => exact (quiet_probe (p := p) stem s).notes.accounts hs
  | loadPackage name => exact (takes_loadPackage hs name).accounts hs
  | preload => exact (takes_preload hs).accounts hs
  | loadDiscovered => exact (takes_loadDiscovered hs).1.accounts hs
  | crawl path depth =>
    have hbrings := brings_crawl (p := p) path depth s
    exact .of_eq hs hbrings.loaded hbrings.discovered
  | register path content => exact (notes_register p path content s).accounts hs

theorem accounts_runOver (hs : Tidy s) (steps : List (Store × Operation)) :
    Accounts (runPackageCalls p s steps) s (runOver p s steps) := by
  induction steps generalizing s with
  | nil => exact .of_eq hs rfl rfl
  | cons step steps ih =>
    have hfirst := accounts_perform (p := p.on step.1) hs step.2
    exact hfirst.trans (ih hfirst.tidy)

/-- Only requests for sources put packages into the queue. -/
theorem discovered_subset_of_request?_eq_none (hs : Tidy s) {operation : Operation}
    (h : operation.request? p s = none) :
    (perform p s operation).2.discovered ⊆ s.discovered := by
  have htakes {calls : List PackageCall} {t : Session} (h : Takes calls s t) :
      t.discovered ⊆ s.discovered := by
    rw [h.discovered]
    exact List.filter_subset_self _
  have hsame {t : Session} (h : t.discovered = s.discovered) : t.discovered ⊆ s.discovered :=
    h ▸ List.Subset.refl _
  cases operation with
  | configure => exact hsame (configure_packages p s).2
  | start entry => cases h
  | activate path => cases h
  | loadSource path depth => cases h
  | probe stem => exact hsame (quiet_probe (p := p) stem s).discovered
  | loadPackage name => exact htakes (takes_loadPackage hs name)
  | preload => exact htakes (takes_preload hs)
  | loadDiscovered => exact htakes (takes_loadDiscovered hs).1
  | crawl path depth => exact hsame (brings_crawl (p := p) path depth s).discovered
  | register path content => exact hsame (brings_register (p := p) path content s).discovered

/-- What the request for a source that an operation makes finds in the queue was there before, and
the operation leaves nothing there but what the request does. -/
theorem discovered_of_request? (hs : Tidy s) {operation : Operation} {r : Request}
    (h : operation.request? p s = some r) :
    let t := (perform p s operation).2
    r.session.discovered ⊆ s.discovered ∧ t.discovered ⊆ (r.result p).2.discovered ∧
      ∃ calls, Accounts calls (r.result p).2 t := by
  have hconfigure := accounts_configure (p := p) hs
  have hkept : (configure p s).discovered ⊆ s.discovered := by
    rw [(configure_packages p s).2]
    exact List.Subset.refl _
  cases operation with
  | start entry =>
    cases h
    have hload := accounts_start (p := p) hs entry
    obtain ⟨htakes, hempty⟩ := takes_loadDiscovered (p := p) hload.tidy
    have hdrain := htakes.accounts hload.tidy
    refine ⟨?_, ?_, _, hdrain.trans (accounts_advance hdrain.tidy .ready)⟩
    · rw [Request.ofSource, (takes_preload (p := p) hconfigure.tidy).discovered]
      exact List.Subset.trans (List.filter_subset_self _) hkept
    · have hnone := (advance_packages _ .ready).2.trans hempty
      exact fun n hn => absurd (hnone ▸ hn) List.not_mem_nil
  | activate path =>
    cases h
    have hload := accounts_loadSource (p := p) hconfigure.tidy path 0
    exact ⟨hkept, List.Subset.refl _, _, .of_eq hload.tidy rfl rfl⟩
  | loadSource path depth =>
    cases h
    have hload := accounts_loadSource (p := p) hs path depth
    exact ⟨List.Subset.refl _, List.Subset.refl _, _, .of_eq hload.tidy rfl rfl⟩
  | configure => cases h
  | probe stem => cases h
  | loadPackage name => cases h
  | preload => cases h
  | loadDiscovered => cases h
  | crawl path depth => cases h
  | register path content => cases h

theorem discovered_start (hs : Tidy s) (entry : Text) : (start p entry s).2.discovered = [] := by
  have hload := accounts_start (p := p) hs entry
  exact (advance_packages _ .ready).2.trans (takes_loadDiscovered hload.tidy).2

/-! ## Main result -/

/-- After any run over changing files, and through any next operation:

the packages that were asked for only become more, each of them by one call that answers anything
but that it was asked for before, and they are those of the calls that do; the queue has no
repetitions and nothing in common with them, and what is in either is in either afterwards; only a
request for a source puts packages into the queue, and only the packages, if they have a name, of
specifiers that are not relative, do not start with a slash and match no alias in force, in a file
that was scanned for the request and is registered; conversely all of these but the empty one are
queued or were asked for, as soon as the file is scanned and after the operation; and the loop that
loads the queue takes one package out of it in each round, puts none in, and comes to its end, after
which, as after a start, the queue is empty. -/
theorem packages_accounted_for (p : Project) (steps : List (Store × Operation)) (files : Store)
    (next : Operation) :
    let q := p.on files
    let s := runOver p new steps
    let t := (perform q s next).2
    (s.loaded <:+ t.loaded ∧ s.loaded = (taken (runPackageCalls p new steps)).reverse ∧
      ∀ name, ((runPackageCalls p new steps).filter
        (fun c => c.name = name ∧ c.outcome ≠ .alreadyLoaded)).length ≤ 1) ∧
    (s.discovered.Nodup ∧ s.discovered.Disjoint s.loaded ∧
      ∀ name, name ∈ s.discovered ∨ name ∈ s.loaded → name ∈ t.discovered ∨ name ∈ t.loaded) ∧
    (next.request? q s = none → t.discovered ⊆ s.discovered) ∧
    (∀ r, next.request? q s = some r →
      r.session.discovered ⊆ s.discovered ∧ t.discovered ⊆ (r.result q).2.discovered ∧
      (∀ name ∈ (r.result q).2.discovered, name ∈ r.session.discovered ∨
        name ≠ [] ∧ ∃ made ∈ r.all q, ∃ path content, made.Scans q path content ∧
          (⟨Path.toProject path, content⟩ ∈ (made.result q).2.corpus ∨
            made.session.has (Path.toProject path) = true) ∧
          ∃ x ∈ q.specifiersIn content, Specifier.isRelative x = false ∧ x.head? ≠ some '/' ∧
            made.session.aliases.covers x = false ∧ Specifier.packageName x = name) ∧
      (∀ made ∈ r.all q, ∀ path content, made.Scans q path content →
        ∀ x ∈ q.specifiersIn content, Specifier.isRelative x = false → x.head? ≠ some '/' →
          made.session.aliases.covers x = false → x ≠ [] →
          (Specifier.packageName x ∈ (made.result q).2.discovered ∨
            Specifier.packageName x ∈ (made.result q).2.loaded) ∧
          (Specifier.packageName x ∈ t.discovered ∨ Specifier.packageName x ∈ t.loaded))) ∧
    ((∀ k, ((drainRound q)^[k] (0, s)).2.discovered = s.discovered.drop k) ∧
      (drainRound q)^[s.discovered.length] (0, s) = loadDiscovered q s ∧
      (loadDiscovered q s).2.discovered = [] ∧
      ∀ entry, (start q entry s).2.discovered = []) := by
  intro q s t
  have hrun : Accounts (runPackageCalls p new steps) new s := accounts_runOver tidy_new steps
  have hs : Tidy s := hrun.tidy
  have hloaded : s.loaded = (taken (runPackageCalls p new steps)).reverse :=
    hrun.loaded.trans (List.append_nil _)
  have hnext : Accounts (packageCalls q s next) s t := accounts_perform hs next
  refine ⟨⟨?_, hloaded, fun name => ?_⟩, ⟨hs.discovered, hs.disjoint, hnext.known⟩,
    discovered_subset_of_request?_eq_none hs, fun r hr => ?_, ?_, ?_,
    (takes_loadDiscovered hs).2, discovered_start hs⟩
  · rw [hnext.loaded]
    exact List.suffix_append _ _
  · rw [length_filter_eq_count_taken, ← List.count_reverse, ← hloaded]
    exact List.nodup_iff_count_le_one.1 hs.loaded name
  · obtain ⟨hbefore, hafter, calls, haccounts⟩ := discovered_of_request? hs hr
    have hnotes := r.notes_result q
    refine ⟨hbefore, hafter, fun name hname => ?_, fun made hmade path content hscans x hx
      hrelative hroot hcovers hne => ?_⟩
    · refine ((hnotes.mem_iff name).1 hname).imp_right ?_
      rintro ⟨hne, -, made, hmade, path, content, hscans, x, hx, hkind, hpackage⟩
      obtain ⟨hrelative, hroot, hcovers⟩ := Specifier.external_iff.1 hkind
      exact ⟨hne, made, hmade, path, content, hscans, hscans.registered, x, hx, hrelative, hroot,
        hcovers, hpackage⟩
    · have hkind := Specifier.external_iff.2 ⟨hrelative, hroot, hcovers⟩
      have hmentions : made.Mentions q (Specifier.packageName x) :=
        ⟨path, content, hscans, x, hx, hkind, rfl⟩
      have hpackage := Specifier.packageName_ne_nil hkind hne
      exact ⟨(made.notes_result q).mem_of_named ⟨made, List.mem_cons_self, hmentions⟩ hpackage,
        haccounts.known _ (hnotes.mem_of_named ⟨made, hmade, hmentions⟩ hpackage)⟩
  · exact iterate_drainRound_discovered hs 0
  · rw [iterate_drainRound_length hs, Nat.zero_add]

/-- A file whose only specifier is empty, where every line of a file is taken for a specifier. -/
def blankProject : Project :=
  (Tree.ofFiles [("a.ts".toList, [])]).project (Text.split '\n') { priorityPackages := [] }

/-- The package of the empty specifier has no name. It is neither queued nor asked for, although the
specifier is not relative, does not start with a slash and matches no alias. -/
theorem not_packages_accounted_for_blank :
    let r := Request.ofSource blankProject "a.ts".toList 0 new
    let t := (perform blankProject new (.loadSource "a.ts".toList 0)).2
    r.Scans blankProject "a.ts".toList [] ∧ t.has "a.ts".toList = true ∧
      [] ∈ blankProject.specifiersIn [] ∧ Specifier.isRelative [] = false ∧
      ([] : Text).head? ≠ some '/' ∧ r.session.aliases.covers [] = false ∧
      Specifier.packageName [] ∉ (r.result blankProject).2.discovered ∧
      Specifier.packageName [] ∉ (r.result blankProject).2.loaded ∧
      Specifier.packageName [] ∉ t.discovered ∧ Specifier.packageName [] ∉ t.loaded := by
  refine ⟨⟨?_, ?_, ?_⟩, ?_⟩
  all_goals decide +kernel

end Session

end SourceClosure
