import SourceClosure.Specifier.Scan
import SourceClosure.Proofs.Session.Load

/-!
# Activating a file

A file that becomes active is loaded with what it leads to, unless its path is in the corpus
already. Then nothing is done: the file's imports are in the corpus if the file was loaded with
room to follow them, but not if it ended a chain that was cut there, or if a search for
declarations brought it in.
-/

namespace SourceClosure

/-! ## Requests of a run -/

namespace Operation

/-- The operation does not hand in anything but files of the project. -/
def KeepsToFiles (p : Project) : Operation → Prop
  | register path _ => p.readable? (Path.toProject path) = some (Path.toProject path)
  | _ => True

/-- The request for a source that an operation makes of a session. -/
def request? (p : Project) (s : Session) : Operation → Option Request
  | start entry => some (.ofSource p entry 0 (Session.preload p (Session.configure p s)).2)
  | activate path => some (.ofSource p path 0 (Session.configure p s))
  | loadSource path depth => some (.ofSource p path depth s)
  | _ => none

/-- All requests for sources that are made for an operation, at any remove. -/
def requests (p : Project) (s : Session) (operation : Operation) : List Request :=
  match operation.request? p s with
  | none => []
  | some r => r.all p

end Operation

namespace Session

/-- All requests for sources that are made in a run, each with the session at that time. -/
def runRequests (p : Project) : Session → List Operation → List Request
  | _, [] => []
  | s, operation :: operations =>
    operation.requests p s ++ runRequests p (perform p s operation).2 operations

variable {p : Project}

/-! ## What a run keeps -/

theorem FromFiles.configure {s : Session} (h : FromFiles p s) : FromFiles p (configure p s) := by
  intro f hf
  rw [configure_corpus] at hf
  exact h f hf

theorem FromFiles.advance {s : Session} (h : FromFiles p s) (phase : Phase) :
    FromFiles p (s.advance phase) := by
  intro f hf
  rw [advance_corpus] at hf
  exact h f hf

theorem FromFiles.perform (hp : p.files.Lexical) {s : Session} (h : FromFiles p s)
    {operation : Operation} (hoperation : operation.KeepsToFiles p) :
    FromFiles p (perform p s operation).2 := by
  refine perform_invariant (FromFiles.change hp) FromFiles.configure ?_ ?_ h
  · intro t phase ht
    exact ht.advance phase
  · intro path content hregister t ht
    rw [hregister] at hoperation
    exact ht.register hoperation content

/-- A request of an operation is made of a session whose corpus comes from the project, and what it
brings in stays. -/
theorem request?_spec (hp : p.files.Lexical) {s : Session} (h : FromFiles p s)
    {operation : Operation} {r : Request} (hr : operation.request? p s = some r) :
    FromFiles p r.session ∧ Path.toProject r.stem = r.stem ∧
      (r.result p).2.corpus <+: (perform p s operation).2.corpus := by
  cases operation with
  | start entry =>
    cases hr
    refine ⟨h.configure.evolves hp (evolves_preload _), Path.toProject_toProject entry, ?_⟩
    exact (advance_corpus _ _).symm ▸ (evolves_loadDiscovered _).corpus_grows
  | activate path =>
    cases hr
    exact ⟨h.configure, Path.toProject_toProject path, List.prefix_refl _⟩
  | loadSource path depth =>
    cases hr
    exact ⟨h, Path.toProject_toProject path, List.prefix_refl _⟩
  | configure => cases hr
  | probe stem => cases hr
  | loadPackage name => cases hr
  | preload => cases hr
  | loadDiscovered => cases hr
  | crawl path depth => cases hr
  | register path content => cases hr

/-- Every request of a run is made of a session whose corpus comes from the project, and what it
brings in stays. -/
theorem mem_runRequests_spec (hp : p.files.Lexical) {s : Session} (h : FromFiles p s)
    {operations : List Operation} (hoperations : ∀ o ∈ operations, o.KeepsToFiles p)
    {r : Request} (hr : r ∈ runRequests p s operations) :
    FromFiles p r.session ∧ Path.toProject r.stem = r.stem ∧
      (r.result p).2.corpus <+: (run p s operations).corpus := by
  induction operations generalizing s with
  | nil => cases hr
  | cons operation operations ih =>
    have hperform := h.perform hp (hoperations operation List.mem_cons_self)
    rcases List.mem_append.1 hr with hr | hr
    · unfold Operation.requests at hr
      split at hr
      · cases hr
      · next first hfirst =>
        obtain ⟨hfiles, hstem, hkept⟩ := request?_spec hp h hfirst
        obtain ⟨hbefore, hafter⟩ := Request.evolves_of_mem_all hr
        refine ⟨hfiles.evolves hp hbefore, Request.toProject_stem_of_mem_all hr hstem, ?_⟩
        exact (hafter.corpus_grows.trans hkept).trans (corpus_prefix_run _ operations)
    · exact ih hperform (fun o ho => hoperations o (List.mem_cons_of_mem _ ho)) hr

/-! ## Answers -/

/-- A request with room that loads its file, or finds it in the corpus, is for a readable file. -/
theorem exists_readable?_of_answer (hp : p.files.Lexical) {r : Request}
    (hs : FromFiles p r.session) (hroom : 0 < r.room)
    (h : (∃ c, (r.result p).1 = .loaded c) ∨ (r.result p).1 = .alreadyLoaded) :
    ∃ f, p.readable? r.stem = some f := by
  obtain ⟨room, stem, s⟩ := r
  obtain ⟨room, rfl⟩ : ∃ n, room = n + 1 := ⟨room - 1, by dsimp only at hroom; omega⟩
  rw [← Option.isSome_iff_exists, ← Option.ne_none_iff_isSome]
  intro hnone
  have hmiss : (Request.result p ⟨room + 1, stem, s⟩).1 = .notFound :=
    notFound_of_readable?_eq_none hp hs room hnone
  rw [hmiss] at h
  rcases h with ⟨c, hc⟩ | h
  · cases hc
  · cases h

/-- A request that loads its file, with room for one more, brings in the imports of what its stem
stands for. -/
theorem has_of_imports_of_loaded (hp : p.files.Lexical) {r : Request}
    (hs : FromFiles p r.session) (hstem : Path.toProject r.stem = r.stem) (hroom : 1 < r.room)
    {c f g : Text} (hloaded : (r.result p).1 = .loaded c) (hf : p.readable? r.stem = some f)
    (h : p.Imports r.session.aliases f g) : (r.result p).2.has g = true := by
  have hfile : r.file? p = some (Path.toProject c) :=
    Request.file?_eq_some_iff.2 ⟨c, hloaded, rfl⟩
  have hc : some (Path.toProject c) = some f := by
    rw [← Request.readable?_of_file? hfile, hf]
  rw [hc] at hfile
  exact Request.has_of_imports hp hs hstem hroom hfile h

/-! ## Main result -/

/-- After a file is activated, in a session that only knows files of the project, all its imports
are in the corpus, provided that if it was there before, a request of the session loaded it with
room for its imports and with the aliases that are in force now. -/
theorem has_imports_of_activate (t : Tree) (specifiersIn : Text → List Text)
    (settings : Settings) (hdepth : 1 < settings.maxSourceDepth) (operations : List Operation)
    (hoperations : ∀ o ∈ operations, o.KeepsToFiles (t.project specifiersIn settings))
    (path : Text) :
    let p := t.project specifiersIn settings
    let activated := activate p path (run p new operations)
    ((∃ c, activated.1 = .loaded c) ∨ activated.1 = .alreadyLoaded) →
      ∃ f, p.readable? (Path.toProject path) = some f ∧
        ((activated.1 = .alreadyLoaded →
          Request.Followed p activated.2.aliases (runRequests p new operations) f) →
        ∀ g, p.Imports activated.2.aliases f g → activated.2.has g = true) := by
  intro p activated hanswer
  have hp : p.files.Lexical := t.lexical_store
  have hnew : FromFiles p new := .of_corpus_nil rfl
  have hrun : FromFiles p (run p new operations) :=
    run_invariant (fun o ho _ hs => hs.perform hp (hoperations o ho)) hnew
  have hstem : Path.toProject (Path.toProject path) = Path.toProject path :=
    Path.toProject_toProject path
  have haliases : activated.2.aliases = (configure p (run p new operations)).aliases :=
    (evolves_loadSource path 0 _).aliases
  obtain ⟨f, hf⟩ := exists_readable?_of_answer hp (r := .ofSource p path 0 _) hrun.configure
    (Nat.zero_lt_of_lt hdepth) hanswer
  refine ⟨f, hf, ?_⟩
  intro hfollowed g hg
  rcases hanswer with ⟨c, hloaded⟩ | hknown
  · rw [haliases] at hg
    exact has_of_imports_of_loaded hp (r := .ofSource p path 0 _) hrun.configure hstem hdepth
      hloaded hf hg
  · obtain ⟨q, hq, hqaliases, hfile, hqroom⟩ := hfollowed hknown
    obtain ⟨hqfiles, hqstem, hkept⟩ := mem_runRequests_spec hp hnew hoperations hq
    rw [← hqaliases] at hg
    have hhas := Request.has_of_imports hp hqfiles hqstem hqroom hfile hg
    exact has_of_prefix (hkept.trans (corpus_prefix_perform _ (.activate path))) hhas

/-- A chain of three files. -/
def threeFiles : Tree :=
  .ofFiles [("a.ts".toList, "import './b'".toList), ("b.ts".toList, "import './c'".toList),
    ("c.ts".toList, [])]

set_option maxRecDepth 20000 in
theorem has_import_of_activate_threeFiles :
    let p := threeFiles.project Specifier.extract { maxSourceDepth := 3, priorityPackages := [] }
    let activated := activate p "b".toList (run p new [.start "a".toList])
    1 < p.settings.maxSourceDepth ∧
      (∀ o ∈ [Operation.start "a".toList], o.KeepsToFiles p) ∧
      activated.1 = .alreadyLoaded ∧
      Request.Followed p activated.2.aliases (runRequests p new [.start "a".toList])
        "b.ts".toList ∧
      activated.2.has "c.ts".toList = true := by
  intro p activated
  have hdepth : 1 < p.settings.maxSourceDepth := by decide
  have hoperations : ∀ o ∈ [Operation.start "a".toList], o.KeepsToFiles p := by
    intro o ho
    rw [List.mem_singleton] at ho
    rw [ho]
    trivial
  have hknown : activated.1 = .alreadyLoaded := by decide
  have hfollowed : Request.Followed p activated.2.aliases
      (runRequests p new [.start "a".toList]) "b.ts".toList := by
    unfold Request.Followed
    decide
  have himports : p.Imports activated.2.aliases "b.ts".toList "c.ts".toList := by decide
  have hb : p.readable? (Path.toProject "b".toList) = some "b.ts".toList := by decide
  obtain ⟨f, hf, hall⟩ := has_imports_of_activate threeFiles Specifier.extract
    { maxSourceDepth := 3, priorityPackages := [] } hdepth [.start "a".toList] hoperations
    "b".toList (.inr hknown)
  have hbf : "b.ts".toList = f := Option.some_inj.1 (hb.symm.trans hf)
  subst hbf
  exact ⟨hdepth, hoperations, hknown, hfollowed, hall (fun _ => hfollowed) _ himports⟩

set_option maxRecDepth 20000 in
/-- The last file of a chain that was cut is in the corpus without its imports, and activating it
does not bring them in. -/
theorem not_has_import_of_activate_threeFiles :
    let p := threeFiles.project Specifier.extract { maxSourceDepth := 2, priorityPackages := [] }
    let activated := activate p "b.ts".toList (run p new [.start "a.ts".toList])
    1 < p.settings.maxSourceDepth ∧ activated.1 = .alreadyLoaded ∧
      p.readable? (Path.toProject "b.ts".toList) = some "b.ts".toList ∧
      p.Imports activated.2.aliases "b.ts".toList "c.ts".toList ∧
      activated.2.has "c.ts".toList = false := by
  decide

end Session

end SourceClosure
