import SourceClosure.Proofs.Session.Request

/-!
# What a request brings in

A request with room leaves the file that its stem stands for in the corpus, whether it loads the
file or finds it there. A request that loads a file with room for one more also leaves there all
the files that the file imports. Conversely, a file gets into the corpus only by a request that
loads it, and a file that is loaded on behalf of another is imported by it.
-/

namespace SourceClosure

namespace Session

variable {p : Project}

/-! ## Corpora that come from the project -/

/-- Every file of the corpus is what its own path stands for in the project. -/
def FromFiles (p : Project) (s : Session) : Prop :=
  ∀ f ∈ s.corpus, p.readable? f.path = some f.path

namespace FromFiles

theorem of_corpus_nil {s : Session} (h : s.corpus = []) : FromFiles p s := by
  intro f hf
  rw [h] at hf
  cases hf

theorem readable? {s : Session} (h : FromFiles p s) {path : Text} (hpath : s.has path = true) :
    p.readable? path = some path := by
  obtain ⟨f, hf, rfl⟩ := has_iff.1 hpath
  exact h f hf

theorem register {s : Session} (h : FromFiles p s) {path : Text}
    (hpath : p.readable? (Path.toProject path) = some (Path.toProject path)) (content : Text) :
    FromFiles p (s.register p path content).2 := by
  intro f hf
  rcases register_corpus p path content s with hs | hs
  · exact h f (hs ▸ hf)
  · rw [hs, List.mem_append, List.mem_singleton] at hf
    rcases hf with hf | rfl
    · exact h f hf
    · exact hpath

theorem change (hp : p.files.Lexical) {s t : Session} (hchange : Change p s t)
    (h : FromFiles p s) : FromFiles p t := by
  cases hchange with
  | note => exact h
  | feed hread hsuffix => exact h.register (Project.readable?_of_read hp hread hsuffix) _
  | discover =>
    intro f hf
    rw [discover_corpus] at hf
    exact h f hf
  | take => exact h
  | requeue => exact h

theorem evolves (hp : p.files.Lexical) {s t : Session} (h : FromFiles p s)
    (hst : Evolves p s t) : FromFiles p t :=
  hst.invariant (fun hchange ht => change hp hchange ht) h

/-- A candidate that is in the corpus is a project path that can be read. -/
theorem candidate (hp : p.files.Lexical) {s : Session} (h : FromFiles p s) {stem c : Text}
    (hprobed : p.probed? stem = some c) (hc : s.has c = true) : p.readable? stem = some c := by
  obtain ⟨d, content, -, hread, rfl⟩ := Project.readable?_eq_some_iff.1 (h.readable? hc)
  refine Project.readable?_eq_some_iff.2 ⟨_, content, hprobed, ?_, Path.toProject_toProject d⟩
  rw [hp.read, hread]

end FromFiles

/-! ## The file of a stem -/

/-- A request with room misses only stems that stand for no readable file. -/
theorem readable?_eq_none_of_notFound {room : Nat} {stem : Text} {s : Session}
    (h : (loadWithin p (room + 1) stem s).1 = .notFound) : p.readable? stem = none := by
  cases served p room stem s with
  | known _ _ _ hresult _ => rw [hresult] at h; cases h
  | missed _ _ hmissing _ _ => exact hmissing
  | opened _ _ _ _ _ _ hresult _ => rw [hresult] at h; cases h

/-- A request with room misses all stems that stand for no readable file. -/
theorem notFound_of_readable?_eq_none (hp : p.files.Lexical) {s : Session} (hs : FromFiles p s)
    (room : Nat) {stem : Text} (h : p.readable? stem = none) :
    (loadWithin p (room + 1) stem s).1 = .notFound := by
  cases served p room stem s with
  | known _ _ hfound _ _ =>
    rcases hfound with hstem | ⟨c, hprobed, hc⟩
    · rw [hs.readable? hstem] at h
      cases h
    · rw [hs.candidate hp hprobed hc] at h
      cases h
  | missed _ _ _ hresult _ => rw [hresult]
  | opened _ c content _ hprobed hread _ _ =>
    rw [Project.readable?_eq_some_iff.2 ⟨c, content, hprobed, hread, rfl⟩] at h
    cases h

/-- After a request with room, the readable file that the stem stands for is in the corpus. -/
theorem has_of_readable? (hp : p.files.Lexical) {s : Session} (hs : FromFiles p s) (room : Nat)
    {stem g : Text} (h : p.readable? stem = some g) :
    (loadWithin p (room + 1) stem s).2.has g = true := by
  cases served p room stem s with
  | known t hquiet hfound hresult _ =>
    rw [hresult, hquiet.has]
    rcases hfound with hstem | ⟨c, hprobed, hc⟩
    · have hg : stem = g := by simpa [hs.readable? hstem] using h
      rwa [← hg]
    · have hg : c = g := by simpa [hs.candidate hp hprobed hc] using h
      rwa [← hg]
  | missed t _ hmissing _ _ =>
    rw [hmissing] at h
    cases h
  | opened t c content _ hprobed hread hresult _ =>
    have hg : Path.toProject c = g := by
      simpa [Project.readable?, hprobed, hread, Except.toOption] using h
    rw [hresult]
    refine (evolves_feed_register (evolves_loadWithin room) c content t).has ?_
    exact has_register_iff.2 (.inr hg)

/-! ## The imports of a file -/

/-- Of several stems the first is loaded that stands for a readable file; those before it leave the
corpus alone. -/
theorem exists_loadFirst_eq (hp : p.files.Lexical) {s : Session} (hs : FromFiles p s) (room : Nat)
    {stems : List Text} {g : Text} (h : stems.findSome? p.readable? = some g) :
    ∃ stem ∈ stems, p.readable? stem = some g ∧ ∃ t, Quiet p s t ∧
      loadFirst (loadWithin p (room + 1)) stems s = (loadWithin p (room + 1) stem t).2 := by
  induction stems generalizing s with
  | nil => cases h
  | cons stem stems ih =>
    rw [List.findSome?_cons] at h
    cases hstem : p.readable? stem with
    | some g' =>
      rw [hstem] at h
      have hne : (loadWithin p (room + 1) stem s).1 ≠ .notFound := by
        intro hmiss
        rw [readable?_eq_none_of_notFound hmiss] at hstem
        cases hstem
      refine ⟨stem, List.mem_cons_self, hstem.trans h, s, .refl s, ?_⟩
      rw [loadFirst]
      exact if_neg hne
    | none =>
      rw [hstem] at h
      have hmiss := notFound_of_readable?_eq_none hp hs room hstem
      -- A stem that is missed has put questions to the store and done nothing else.
      have hquiet : Quiet p s (loadWithin p (room + 1) stem s).2 := by
        cases served p room stem s with
        | known t hquiet _ hresult _ => rwa [hresult]
        | missed t hquiet _ hresult _ => rwa [hresult]
        | opened t c content _ _ _ hresult _ => rw [hresult] at hmiss; cases hmiss
      obtain ⟨x, hx, hread, t, ht, heq⟩ := ih (hs.evolves hp hquiet.evolves) h
      refine ⟨x, List.mem_cons_of_mem stem hx, hread, t, hquiet.trans ht, ?_⟩
      rw [loadFirst]
      exact (if_pos hmiss).trans heq

theorem has_of_findSome? (hp : p.files.Lexical) {s : Session} (hs : FromFiles p s) (room : Nat)
    {stems : List Text} {g : Text} (h : stems.findSome? p.readable? = some g) :
    (loadFirst (loadWithin p (room + 1)) stems s).has g = true := by
  obtain ⟨stem, -, hstem, t, hquiet, heq⟩ := exists_loadFirst_eq hp hs room h
  rw [heq]
  exact has_of_readable? hp (hs.evolves hp hquiet.evolves) room hstem

theorem has_of_resolve? (hp : p.files.Lexical) {s : Session} (hs : FromFiles p s) (room : Nat)
    {directory specifier g : Text}
    (h : p.resolve? s.aliases directory specifier = some g) :
    (follow (loadWithin p (room + 1)) directory s specifier).has g = true := by
  have hkind : Specifier.kind s.aliases specifier ≠ .external := by
    intro hkind
    rw [Project.resolve?, Specifier.stems, hkind] at h
    cases h
  rw [follow_eq_loadFirst hkind]
  exact has_of_findSome? hp hs room h

/-- Following the specifiers of a file with room brings in whatever they lead to. -/
theorem has_of_mem_specifiers (hp : p.files.Lexical) {s : Session} (hs : FromFiles p s)
    (room : Nat) {directory specifier g : Text} {specifiers : List Text}
    (hmem : specifier ∈ specifiers) (h : p.resolve? s.aliases directory specifier = some g) :
    (specifiers.foldl (follow (loadWithin p (room + 1)) directory) s).has g = true := by
  have hfollow (s : Session) (x : Text) :
      Evolves p s (follow (loadWithin p (room + 1)) directory s x) :=
    evolves_follow (evolves_loadWithin (room + 1)) directory s x
  induction specifiers generalizing s with
  | nil => cases hmem
  | cons x specifiers ih =>
    rw [List.foldl_cons]
    rcases List.mem_cons.1 hmem with rfl | hmem
    · exact (Evolves.foldl hfollow specifiers _).has (has_of_resolve? hp hs room h)
    · refine ih (hs.evolves hp (hfollow s x)) hmem ?_
      rwa [(hfollow s x).aliases]

/-- A specifier that leads anywhere is tried. -/
theorem followCalls_ne_nil {load : Text → Session → LoadOutcome × Session}
    (hload : ∀ stem s, Evolves p s (load stem s).2) {s : Session}
    {directory specifier g : Text} {specifiers : List Text}
    (hmem : specifier ∈ specifiers) (h : p.resolve? s.aliases directory specifier = some g) :
    followCalls load directory specifiers s ≠ [] := by
  induction specifiers generalizing s with
  | nil => cases hmem
  | cons x specifiers ih =>
    unfold followCalls
    intro hnil
    obtain ⟨hfirst, hrest⟩ := List.append_eq_nil_iff.1 hnil
    rcases List.mem_cons.1 hmem with rfl | hmem
    · rw [Project.resolve?] at h
      cases hstems : Specifier.stems s.aliases directory specifier with
      | nil => rw [hstems] at h; cases h
      | cons stem stems => rw [hstems] at hfirst; cases hfirst
    · refine ih hmem ?_ hrest
      rwa [(evolves_follow hload directory s x).aliases]

end Session

/-! ## Requests -/

namespace Request

open Session

variable {p : Project}

/-- A request that loads a file, seen from its result. -/
theorem file?_eq_some_iff {r : Request} {f : Text} :
    r.file? p = some f ↔ ∃ c, (r.result p).1 = .loaded c ∧ Path.toProject c = f := by
  unfold file?
  cases (r.result p).1 <;> simp

/-- What a request does that answers with a path it loaded: it finds the path and feeds the file. -/
theorem exists_opened_of_loaded {r : Request} {c : Text} (h : (r.result p).1 = .loaded c) :
    ∃ room t content, r.room = room + 1 ∧ Quiet p r.session t ∧ p.probed? r.stem = some c ∧
      p.files.read c = .ok content ∧ (r.result p).2 = feed p (loadWithin p room) c content t ∧
      loadCalls p room r.stem r.session = feedCalls p (loadWithin p room) c content t := by
  obtain ⟨room, stem, s⟩ := r
  dsimp only [result] at *
  cases room with
  | zero => cases h
  | succ room =>
    cases served p room stem s with
    | known _ _ _ hresult _ => rw [hresult] at h; cases h
    | missed _ _ _ hresult _ => rw [hresult] at h; cases h
    | opened t _ content hquiet hprobed hread hresult hcalls =>
      rw [hresult] at h
      cases h
      exact ⟨room, t, content, rfl, hquiet, hprobed, hread, by rw [hresult], hcalls⟩

/-- What a request does that loads a file: it finds the file and feeds it. -/
theorem exists_opened {r : Request} {f : Text} (h : r.file? p = some f) :
    ∃ room t c content, r.room = room + 1 ∧ Quiet p r.session t ∧
      p.probed? r.stem = some c ∧ p.files.read c = .ok content ∧ Path.toProject c = f ∧
      (r.result p).2 = feed p (loadWithin p room) c content t ∧
      loadCalls p room r.stem r.session = feedCalls p (loadWithin p room) c content t := by
  obtain ⟨c, hloaded, hf⟩ := file?_eq_some_iff.1 h
  obtain ⟨room, t, content, hroom, hquiet, hprobed, hread, hresult, hcalls⟩ :=
    exists_opened_of_loaded hloaded
  exact ⟨room, t, c, content, hroom, hquiet, hprobed, hread, hf, hresult, hcalls⟩

theorem room_pos_of_file? {r : Request} {f : Text} (h : r.file? p = some f) : 0 < r.room := by
  obtain ⟨room, -, -, -, hroom, -⟩ := exists_opened h
  omega

theorem readable?_of_file? {r : Request} {f : Text} (h : r.file? p = some f) :
    p.readable? r.stem = some f := by
  obtain ⟨-, -, c, content, -, -, hprobed, hread, hf, -⟩ := exists_opened h
  exact Project.readable?_eq_some_iff.2 ⟨c, content, hprobed, hread, hf⟩

/-- What a request does that loads a file which imports another: one of the specifiers that it
follows leads to the other. -/
theorem exists_specifier_of_imports (hp : p.files.Lexical) {r : Request}
    (hstem : Path.toProject r.stem = r.stem) {f g : Text}
    (hf : r.file? p = some f) (h : p.Imports r.session.aliases f g) :
    ∃ room t c content, r.room = room + 1 ∧
      (r.result p).2 = feed p (loadWithin p room) c content t ∧
      loadCalls p room r.stem r.session = feedCalls p (loadWithin p room) c content t ∧
      Evolves p r.session (t.register p c content).2 ∧ isScannable c = true ∧
      ∃ specifier ∈ p.specifiersIn content,
        p.resolve? (t.register p c content).2.aliases (Path.directory c) specifier = some g := by
  obtain ⟨room, t, c, content, hroom, hquiet, hprobed, hread, rfl, hresult, hcalls⟩ :=
    exists_opened hf
  have hname := Project.namesFile_of_probed? hstem hprobed
  have hfeed := hquiet.evolves.trans (Change.feed t hread hname.suffix).evolves
  rw [Project.Imports, Project.imports_toProject hp hname hread] at h
  split at h
  · next hscan =>
    obtain ⟨specifier, hmem, hresolve⟩ := List.mem_filterMap.1 h
    refine ⟨room, t, c, content, hroom, hresult, hcalls, hfeed, hscan, specifier, hmem, ?_⟩
    rwa [hfeed.aliases]
  · cases h

/-- A request that loads a file with room for one more brings in all the file's imports. -/
theorem has_of_imports (hp : p.files.Lexical) {r : Request} (hs : FromFiles p r.session)
    (hstem : Path.toProject r.stem = r.stem) (hroom : 1 < r.room) {f g : Text}
    (hf : r.file? p = some f) (h : p.Imports r.session.aliases f g) :
    (r.result p).2.has g = true := by
  obtain ⟨room, t, c, content, hr, hresult, -, hfeed, hscan, specifier, hmem, hresolve⟩ :=
    exists_specifier_of_imports hp hstem hf h
  obtain ⟨room, rfl⟩ : ∃ n, room = n + 1 := ⟨room - 1, by omega⟩
  rw [hresult, feed, if_pos hscan]
  exact has_of_mem_specifiers hp (hs.evolves hp hfeed) room hmem hresolve

/-- Some request of the list, made with these aliases in force, loaded the file with room for one
more. -/
def Followed (p : Project) (aliases : AliasResolver) (rs : List Request) (f : Text) : Prop :=
  ∃ r ∈ rs, r.session.aliases = aliases ∧ r.file? p = some f ∧ 1 < r.room

/-- A request that loads a file which imports another makes a request itself. -/
theorem exists_makes_of_imports (hp : p.files.Lexical) {r : Request}
    (hstem : Path.toProject r.stem = r.stem) {f g : Text}
    (hf : r.file? p = some f) (h : p.Imports r.session.aliases f g) :
    ∃ made, Makes p r made := by
  obtain ⟨room, t, c, content, hr, -, hcalls, -, hscan, specifier, hmem, hresolve⟩ :=
    exists_specifier_of_imports hp hstem hf h
  have hne := followCalls_ne_nil (evolves_loadWithin (p := p) room) hmem hresolve
  obtain ⟨call, hcall⟩ := List.exists_mem_of_ne_nil _ hne
  obtain ⟨_, stem, s⟩ := r
  obtain rfl := hr
  have hmade : call ∈ loadCalls p room stem s := by
    rwa [hcalls, feedCalls, if_pos hscan]
  exact ⟨_, .call hmade⟩

/-! ## Requests on behalf of a file -/

/-- A request is made for a project path if the one that makes it was. -/
theorem Makes.toProject_stem {parent child : Request} (h : Makes p parent child)
    (hstem : Path.toProject parent.stem = parent.stem) :
    Path.toProject child.stem = child.stem := by
  obtain ⟨c, content, hprobed, -, -, -, specifier, -, t, -, hfirst, -⟩ := h.exists_specifier
  obtain ⟨before, after, hstems, -⟩ := exists_of_mem_firstCalls hfirst
  have hmem : child.stem ∈ Specifier.stems t.aliases (Path.directory c) specifier := by
    rw [hstems]
    exact List.mem_append_right _ List.mem_cons_self
  exact Specifier.toProject_of_mem_stems (Project.namesFile_of_probed? hstem hprobed) hmem

theorem toProject_stem_of_mem_all {r r' : Request} (h : r' ∈ r.all p)
    (hstem : Path.toProject r.stem = r.stem) : Path.toProject r'.stem = r'.stem := by
  rw [mem_all_iff] at h
  induction h with
  | refl => exact hstem
  | tail _ hmakes ih => exact hmakes.toProject_stem ih

/-- Only a request that loads a file makes others. -/
theorem Makes.exists_file {parent child : Request} (h : Makes p parent child) :
    ∃ f, parent.file? p = some f := by
  obtain ⟨c, -, -, -, hloaded, -⟩ := h.exists_specifier
  exact ⟨_, file?_eq_some_iff.2 ⟨c, hloaded, rfl⟩⟩

/-- If anything is loaded on behalf of a request, its stem stands for a readable file. -/
theorem exists_readable?_of_file? {r r' : Request} (h : r' ∈ r.all p) {g : Text}
    (hg : r'.file? p = some g) : ∃ f, p.readable? r.stem = some f := by
  rw [mem_all_iff] at h
  induction h generalizing g with
  | refl => exact ⟨g, readable?_of_file? hg⟩
  | tail _ hmakes ih =>
    obtain ⟨f, hf⟩ := hmakes.exists_file
    exact ih hf

/-- A file that is loaded on behalf of another one is imported by it. -/
theorem Makes.imports (hp : p.files.Lexical) {parent child : Request} (h : Makes p parent child)
    (hstem : Path.toProject parent.stem = parent.stem) {f g : Text}
    (hf : parent.file? p = some f) (hg : child.file? p = some g) :
    p.Imports parent.session.aliases f g := by
  obtain ⟨c, content, hprobed, hread, hloaded, hscan, specifier, hmem, t, ht, hfirst, -⟩ :=
    h.exists_specifier
  obtain ⟨before, after, hstems, hbefore⟩ := exists_of_mem_firstCalls hfirst
  obtain ⟨room, -, -, -, hroom, -⟩ := exists_opened hg
  -- A request with room only misses stems that lead nowhere, so the stem that was tried last is
  -- the first that leads anywhere.
  have hmissing : ∀ stem ∈ before, p.readable? stem = none := by
    intro stem hstem
    obtain ⟨u, hu⟩ := hbefore stem hstem
    rw [hroom] at hu
    exact readable?_eq_none_of_notFound hu
  have hresolve : p.resolve? parent.session.aliases (Path.directory c) specifier = some g := by
    rw [Project.resolve?, ← ht.aliases, hstems, List.findSome?_append,
      List.findSome?_eq_none_iff.2 hmissing, Option.none_or, List.findSome?_cons,
      readable?_of_file? hg]
  obtain ⟨d, hd, rfl⟩ := file?_eq_some_iff.1 hf
  rw [hloaded] at hd
  cases hd
  rw [Project.Imports, Project.imports_toProject hp
    (Project.namesFile_of_probed? hstem hprobed) hread, if_pos hscan]
  exact List.mem_filterMap.2 ⟨specifier, hmem, hresolve⟩

/-! ## Where files come from -/

/-- A file that is not in the corpus, and that no request made on its behalf loads, is not there
after a request. -/
theorem has_eq_false_of_forall {r : Request} {g : Text} (hs : r.session.has g = false)
    (hnone : ∀ r' ∈ r.all p, r'.file? p ≠ some g) : (r.result p).2.has g = false := by
  obtain ⟨room, stem, s⟩ := r
  induction room generalizing stem s with
  | zero => exact hs
  | succ room ih =>
    have hfile := hnone _ List.mem_cons_self
    rw [ne_eq, file?_eq_some_iff] at hfile
    dsimp only [result] at *
    cases served p room stem s with
    | known t hquiet _ hresult _ => rw [hresult, hquiet.has, hs]
    | missed t hquiet _ hresult _ => rw [hresult, hquiet.has, hs]
    | opened t c content hquiet _ _ hresult hcalls =>
      rw [hresult] at hfile ⊢
      -- The file stays out while its importer is registered and through each call.
      refine feed_invariant (I := fun t => t.has g = false) ?_ ?_ ?_
      · intro package u hu
        rwa [Session.has, discover_corpus]
      · intro call hcall hu
        rw [← hcalls] at hcall
        refine ih call.1 call.2 hu (fun r' hr' => hnone r' ?_)
        exact mem_all_of_makes (.call hcall) hr'
      · rw [← Bool.not_eq_true, has_register_iff, hquiet.has, hs]
        rintro (hfalse | hc)
        · cases hfalse
        · exact hfile ⟨c, rfl, hc⟩

/-- A file that is in the corpus after a request was there before, or was loaded by a request
made on its behalf. -/
theorem exists_file_of_has {r : Request} {g : Text} (h : (r.result p).2.has g = true) :
    r.session.has g = true ∨ ∃ r' ∈ r.all p, r'.file? p = some g := by
  by_cases hfile : ∃ r' ∈ r.all p, r'.file? p = some g
  · exact .inr hfile
  · left
    rw [← Bool.not_eq_false]
    intro hs
    have hnone : ∀ r' ∈ r.all p, r'.file? p ≠ some g := by
      intro r' hr' hg
      exact hfile ⟨r', hr', hg⟩
    rw [has_eq_false_of_forall hs hnone] at h
    cases h

end Request

end SourceClosure
