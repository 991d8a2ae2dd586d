import SourceClosure.Proofs.Session.Change
import SourceClosure.Proofs.Session.Import

/-!
# Requests

Loading a file makes further requests, one for each stem that is tried on behalf of a specifier,
and these make requests in turn. This module lists them (`Request.nested`), each with the session
in which it is made, and says what a request does before it makes others (`Served`). The lists
follow the recursion of the loaders, and they miss nothing, since what comes of a request depends
only on the answers to those that it makes (`loadWithin_congr`). Facts about all requests are proved
by induction along the requests that lead to them, one making the next (`Request.mem_all_iff`).
-/

namespace SourceClosure

namespace Session

/-! ## Following specifiers -/

variable {p : Project} {load : Text → Session → LoadOutcome × Session}

@[simp] theorem loadFirst_singleton (stem : Text) (s : Session) :
    loadFirst load [stem] s = (load stem s).2 := by
  simp [loadFirst]

/-- Specifiers of the project are followed by trying their stems. -/
theorem follow_eq_loadFirst {directory specifier : Text} {s : Session}
    (h : Specifier.kind s.aliases specifier ≠ .external) :
    follow load directory s specifier =
      loadFirst load (Specifier.stems s.aliases directory specifier) s := by
  cases hkind : Specifier.kind s.aliases specifier with
  | relative => simp [follow, Specifier.stems, hkind]
  | aliased => simp [follow, Specifier.stems, hkind]
  | external => exact absurd hkind h

/-- Specifiers of packages are noted. -/
theorem follow_eq_discover {directory specifier : Text} {s : Session}
    (h : Specifier.kind s.aliases specifier = .external) :
    follow load directory s specifier = discover (Specifier.packageName specifier) s := by
  simp [follow, h]

/-! ## Calls -/

/-- The calls of a loader when the stems of a list are tried, each with the session at that
time. -/
def firstCalls (load : Text → Session → LoadOutcome × Session) :
    List Text → Session → List (Text × Session)
  | [], _ => []
  | stem :: stems, s =>
    let result := load stem s
    (stem, s) :: if result.1 = .notFound then firstCalls load stems result.2 else []

/-- The calls of a loader when the specifiers of a file in a directory are followed. -/
def followCalls (load : Text → Session → LoadOutcome × Session) (directory : Text) :
    List Text → Session → List (Text × Session)
  | [], _ => []
  | specifier :: specifiers, s =>
    firstCalls load (Specifier.stems s.aliases directory specifier) s ++
      followCalls load directory specifiers (follow load directory s specifier)

/-- The calls of a loader when a file that was read is fed. -/
def feedCalls (p : Project) (load : Text → Session → LoadOutcome × Session)
    (path content : Text) (s : Session) : List (Text × Session) :=
  let s := (s.register p path content).2
  if isScannable path then
    followCalls load (Path.directory path) (p.specifiersIn content) s
  else []

/-- The calls that a request makes with the room that is left, which is one file less. -/
def loadCalls (p : Project) (room : Nat) (stem : Text) (s : Session) : List (Text × Session) :=
  if s.has stem then []
  else
    let probed := probe p stem s
    match probed.1 with
    | none => []
    | some path =>
      if probed.2.has path then []
      else
        let s := probed.2.note (.read path)
        match p.files.read path with
        | .error _ => []
        | .ok content => feedCalls p (loadWithin p room) path content s

/-! ## What calls account for -/

/-- Where a call comes from: the stems before it have been tried for nothing. -/
theorem exists_of_mem_firstCalls {stems : List Text} {s : Session} {call : Text × Session}
    (h : call ∈ firstCalls load stems s) :
    ∃ before after, stems = before ++ call.1 :: after ∧
      ∀ stem ∈ before, ∃ t, (load stem t).1 = .notFound := by
  induction stems generalizing s with
  | nil => cases h
  | cons stem stems ih =>
    unfold firstCalls at h
    rcases List.mem_cons.1 h with rfl | h
    · exact ⟨[], stems, rfl, by simp⟩
    · split at h
      · next hmiss =>
        obtain ⟨before, after, rfl, hbefore⟩ := ih h
        refine ⟨stem :: before, after, rfl, ?_⟩
        intro x hx
        rcases List.mem_cons.1 hx with rfl | hx
        · exact ⟨s, hmiss⟩
        · exact hbefore x hx
      · cases h

/-- What every call keeps is kept when stems are tried. -/
theorem loadFirst_invariant {I : Session → Prop} {stems : List Text} {s : Session}
    (hcall : ∀ call ∈ firstCalls load stems s, I call.2 → I (load call.1 call.2).2)
    (hs : I s) : I (loadFirst load stems s) := by
  induction stems generalizing s with
  | nil => exact hs
  | cons stem stems ih =>
    have hfirst : I (load stem s).2 := hcall (stem, s) (by simp [firstCalls]) hs
    unfold loadFirst
    dsimp only
    split
    · next hmiss =>
      apply ih _ hfirst
      intro call h
      exact hcall call (by simp [firstCalls, hmiss, h])
    · exact hfirst

/-- What every call keeps, and what noting a package keeps, is kept when specifiers are
followed. -/
theorem foldl_follow_invariant {I : Session → Prop} {directory : Text} {specifiers : List Text}
    {s : Session} (hdiscover : ∀ package t, I t → I (discover package t))
    (hcall : ∀ call ∈ followCalls load directory specifiers s,
      I call.2 → I (load call.1 call.2).2)
    (hs : I s) : I (specifiers.foldl (follow load directory) s) := by
  induction specifiers generalizing s with
  | nil => exact hs
  | cons specifier specifiers ih =>
    have hfollow : I (follow load directory s specifier) := by
      by_cases hkind : Specifier.kind s.aliases specifier = .external
      · rw [follow_eq_discover hkind]
        exact hdiscover _ s hs
      · rw [follow_eq_loadFirst hkind]
        apply loadFirst_invariant _ hs
        intro call h
        exact hcall call (List.mem_append_left _ h)
    apply ih _ hfollow
    intro call h
    exact hcall call (List.mem_append_right _ h)

/-- What every call keeps, and what noting a package keeps, is kept when a file is fed, once it
is registered. -/
theorem feed_invariant {I : Session → Prop} {path content : Text} {s : Session}
    (hdiscover : ∀ package t, I t → I (discover package t))
    (hcall : ∀ call ∈ feedCalls p load path content s, I call.2 → I (load call.1 call.2).2)
    (hs : I (s.register p path content).2) : I (feed p load path content s) := by
  unfold feed
  unfold feedCalls at hcall
  dsimp only at hcall ⊢
  split
  · next hscan =>
    rw [if_pos hscan] at hcall
    exact foldl_follow_invariant hdiscover hcall hs
  · exact hs

/-- What comes of the stems depends only on what the calls answer. -/
theorem loadFirst_congr {load' : Text → Session → LoadOutcome × Session} {stems : List Text}
    {s : Session}
    (h : ∀ call ∈ firstCalls load stems s, load' call.1 call.2 = load call.1 call.2) :
    loadFirst load' stems s = loadFirst load stems s := by
  induction stems generalizing s with
  | nil => rfl
  | cons stem stems ih =>
    have hfirst : load' stem s = load stem s := h (stem, s) (by simp [firstCalls])
    unfold loadFirst
    rw [hfirst]
    dsimp only
    split
    · next hmiss =>
      apply ih
      intro call hcall
      exact h call (by simp [firstCalls, hmiss, hcall])
    · rfl

theorem foldl_follow_congr {load' : Text → Session → LoadOutcome × Session} {directory : Text}
    {specifiers : List Text} {s : Session}
    (h : ∀ call ∈ followCalls load directory specifiers s,
      load' call.1 call.2 = load call.1 call.2) :
    specifiers.foldl (follow load' directory) s = specifiers.foldl (follow load directory) s := by
  induction specifiers generalizing s with
  | nil => rfl
  | cons specifier specifiers ih =>
    have hfollow : follow load' directory s specifier = follow load directory s specifier := by
      by_cases hkind : Specifier.kind s.aliases specifier = .external
      · rw [follow_eq_discover hkind, follow_eq_discover hkind]
      · rw [follow_eq_loadFirst hkind, follow_eq_loadFirst hkind]
        apply loadFirst_congr
        intro call hcall
        exact h call (List.mem_append_left _ hcall)
    rw [List.foldl_cons, List.foldl_cons, hfollow]
    apply ih
    intro call hcall
    exact h call (List.mem_append_right _ hcall)

/-- What comes of feeding a file depends only on what the calls answer. -/
theorem feed_congr {load' : Text → Session → LoadOutcome × Session} {path content : Text}
    {s : Session}
    (h : ∀ call ∈ feedCalls p load path content s, load' call.1 call.2 = load call.1 call.2) :
    feed p load' path content s = feed p load path content s := by
  unfold feed
  unfold feedCalls at h
  dsimp only at h ⊢
  split
  · next hscan =>
    rw [if_pos hscan] at h
    exact foldl_follow_congr h
  · rfl

/-- What comes of a request depends only on what the requests that it makes answer. -/
theorem loadWithin_congr {room room' : Nat} {stem : Text} {s : Session}
    (h : ∀ call ∈ loadCalls p room stem s,
      loadWithin p room' call.1 call.2 = loadWithin p room call.1 call.2) :
    loadWithin p (room' + 1) stem s = loadWithin p (room + 1) stem s := by
  unfold loadCalls at h
  unfold loadWithin
  dsimp only at h ⊢
  split
  · rfl
  · next hstem =>
    rw [if_neg hstem] at h
    cases hprobe : (probe p stem s).1 with
    | none => rfl
    | some path =>
      rw [hprobe] at h
      dsimp only at h ⊢
      split
      · rfl
      · next hpath =>
        rw [if_neg hpath] at h
        cases hread : p.files.read path with
        | error _ => rfl
        | ok content =>
          rw [hread] at h
          exact congrArg (Prod.mk _) (feed_congr h)

section Evolves

variable (hload : ∀ stem s, Evolves p s (load stem s).2)

include hload

theorem evolves_of_mem_firstCalls {stems : List Text} {s : Session} {call : Text × Session}
    (h : call ∈ firstCalls load stems s) :
    Evolves p s call.2 ∧ Evolves p (load call.1 call.2).2 (loadFirst load stems s) := by
  induction stems generalizing s with
  | nil => cases h
  | cons stem stems ih =>
    unfold firstCalls at h
    unfold loadFirst
    dsimp only at h ⊢
    split
    · next hmiss =>
      rw [if_pos hmiss] at h
      rcases List.mem_cons.1 h with rfl | h
      · exact ⟨.refl s, evolves_loadFirst hload stems _⟩
      · obtain ⟨hbefore, hafter⟩ := ih h
        exact ⟨(hload stem s).trans hbefore, hafter⟩
    · next hmiss =>
      rw [if_neg hmiss, List.mem_singleton] at h
      subst h
      exact ⟨.refl s, .refl _⟩

/-- Where a call on behalf of specifiers comes from, and what lies before and behind it. -/
theorem exists_of_mem_followCalls {directory : Text} {specifiers : List Text} {s : Session}
    {call : Text × Session} (h : call ∈ followCalls load directory specifiers s) :
    ∃ specifier ∈ specifiers, ∃ t, Evolves p s t ∧
      call ∈ firstCalls load (Specifier.stems t.aliases directory specifier) t ∧
      Evolves p (load call.1 call.2).2 (specifiers.foldl (follow load directory) s) := by
  induction specifiers generalizing s with
  | nil => cases h
  | cons specifier specifiers ih =>
    rcases List.mem_append.1 h with h | h
    · refine ⟨specifier, List.mem_cons_self, s, .refl s, h, ?_⟩
      have hkind : Specifier.kind s.aliases specifier ≠ .external := by
        intro hkind
        rw [Specifier.stems, hkind] at h
        cases h
      have hfirst := (evolves_of_mem_firstCalls hload h).2
      rw [← follow_eq_loadFirst hkind] at hfirst
      exact hfirst.trans (Evolves.foldl (evolves_follow hload directory) specifiers _)
    · obtain ⟨x, hx, t, ht, hcall, hafter⟩ := ih h
      exact ⟨x, List.mem_cons_of_mem _ hx, t, (evolves_follow hload directory s specifier).trans ht,
        hcall, hafter⟩

/-- Where a call on behalf of a file comes from, and what lies before and behind it. -/
theorem exists_of_mem_feedCalls {path content : Text} {s : Session} {call : Text × Session}
    (h : call ∈ feedCalls p load path content s) :
    isScannable path = true ∧ ∃ specifier ∈ p.specifiersIn content, ∃ t,
      Evolves p (s.register p path content).2 t ∧
      call ∈ firstCalls load (Specifier.stems t.aliases (Path.directory path) specifier) t ∧
      Evolves p (load call.1 call.2).2 (feed p load path content s) := by
  unfold feedCalls at h
  unfold feed
  dsimp only at h ⊢
  split at h
  · next hscan =>
    rw [if_pos hscan]
    exact ⟨hscan, exists_of_mem_followCalls hload h⟩
  · cases h

end Evolves

/-! ## Looking a stem up -/

theorem probeEach_fst (candidates : List Text) (s : Session) :
    (probeEach p candidates s).1 = candidates.find? p.files.isFile := by
  induction candidates generalizing s with
  | nil => rfl
  | cons c candidates ih =>
    unfold probeEach
    rw [List.find?_cons]
    cases hc : p.files.isFile c with
    | true => simp
    | false => simp [ih]

theorem probe_fst (stem : Text) (s : Session) : (probe p stem s).1 = p.probed? stem :=
  probeEach_fst _ s

/-- Looking a stem up puts questions to the store and does nothing else. -/
theorem exists_probeEach_eq (candidates : List Text) (s : Session) :
    ∃ accesses, (probeEach p candidates s).2 = { s with accesses := accesses } := by
  induction candidates generalizing s with
  | nil => exact ⟨s.accesses, rfl⟩
  | cons c candidates ih =>
    unfold probeEach
    split
    · exact ⟨_, rfl⟩
    · exact ih (s.note (.isFile c))

/-- The second session comes of the first without a change of the corpus or of what is known of
packages. -/
structure Quiet (p : Project) (s t : Session) : Prop where
  evolves : Evolves p s t
  corpus : t.corpus = s.corpus
  loaded : t.loaded = s.loaded
  discovered : t.discovered = s.discovered

namespace Quiet

theorem refl (s : Session) : Quiet p s s :=
  ⟨.refl s, rfl, rfl, rfl⟩

theorem trans {s t u : Session} (h : Quiet p s t) (h' : Quiet p t u) : Quiet p s u :=
  ⟨h.evolves.trans h'.evolves, h'.corpus.trans h.corpus, h'.loaded.trans h.loaded,
    h'.discovered.trans h.discovered⟩

theorem has {s t : Session} (h : Quiet p s t) (path : Text) : t.has path = s.has path := by
  rw [Session.has, Session.has, h.corpus]

theorem note {s t : Session} (h : Quiet p s t) (a : Access) : Quiet p s (t.note a) :=
  ⟨h.evolves.trans (evolves_note t a), h.corpus, h.loaded, h.discovered⟩

end Quiet

theorem quiet_probe (stem : Text) (s : Session) : Quiet p s (probe p stem s).2 := by
  obtain ⟨accesses, hprobe⟩ := exists_probeEach_eq (p := p) (Path.candidates stem) s
  refine ⟨evolves_probe stem s, ?_, ?_, ?_⟩
  all_goals rw [probe, hprobe]

/-- What a request with room does: nothing, if its file is in the corpus or missing, and else it
feeds the file, all other requests being made on behalf of that. -/
inductive Served (p : Project) (room : Nat) (stem : Text) (s : Session) : Prop where
  | known (t : Session) (quiet : Quiet p s t)
      (found : s.has stem = true ∨ ∃ c, p.probed? stem = some c ∧ s.has c = true)
      (result : loadWithin p (room + 1) stem s = (.alreadyLoaded, t))
      (calls : loadCalls p room stem s = [])
  | missed (t : Session) (quiet : Quiet p s t)
      (missing : p.readable? stem = none)
      (result : loadWithin p (room + 1) stem s = (.notFound, t))
      (calls : loadCalls p room stem s = [])
  | opened (t : Session) (c content : Text) (quiet : Quiet p s t)
      (probed : p.probed? stem = some c)
      (read : p.files.read c = .ok content)
      (result : loadWithin p (room + 1) stem s =
        (.loaded c, feed p (loadWithin p room) c content t))
      (calls : loadCalls p room stem s = feedCalls p (loadWithin p room) c content t)

/-- Every request with room is served in one of these ways. -/
theorem served (p : Project) (room : Nat) (stem : Text) (s : Session) :
    Served p room stem s := by
  have hquiet := quiet_probe (p := p) stem s
  cases hstem : s.has stem with
  | true =>
    refine .known s (.refl s) (.inl hstem) ?_ ?_
    · simp [loadWithin, hstem]
    · simp [loadCalls, hstem]
  | false =>
    cases hprobe : p.probed? stem with
    | none =>
      refine .missed _ hquiet ?_ ?_ ?_
      · simp [Project.readable?, hprobe]
      · simp [loadWithin, hstem, probe_fst, hprobe]
      · simp [loadCalls, hstem, probe_fst, hprobe]
    | some c =>
      cases hc : s.has c with
      | true =>
        have hc' : (probe p stem s).2.has c = true := by rw [hquiet.has, hc]
        refine .known _ hquiet (.inr ⟨c, hprobe, hc⟩) ?_ ?_
        · simp [loadWithin, hstem, probe_fst, hprobe, hc']
        · simp [loadCalls, hstem, probe_fst, hprobe, hc']
      | false =>
        have hc' : (probe p stem s).2.has c = false := by rw [hquiet.has, hc]
        have hnote := hquiet.note (.read c)
        cases hread : p.files.read c with
        | error fault =>
          refine .missed _ hnote ?_ ?_ ?_
          · simp [Project.readable?, hprobe, hread, Except.toOption]
          · simp [loadWithin, hstem, probe_fst, hprobe, hc', hread]
          · simp [loadCalls, hstem, probe_fst, hprobe, hc', hread]
        | ok content =>
          refine .opened _ c content hnote hprobe hread ?_ ?_
          · simp [loadWithin, hstem, probe_fst, hprobe, hc', hread]
          · simp [loadCalls, hstem, probe_fst, hprobe, hc', hread]

end Session

/-! ## Requests -/

/-- A request to load the file that a stem stands for, in chains of at most `room` files, to a
session. -/
structure Request where
  room : Nat
  stem : Text
  session : Session

namespace Request

/-- The request that loading a source comes down to. -/
def ofSource (p : Project) (path : Text) (depth : Nat) (s : Session) : Request :=
  ⟨p.settings.maxSourceDepth - depth, Path.toProject path, s⟩

/-- The outcome of the request, and the session after it. -/
def result (p : Project) (r : Request) : LoadOutcome × Session :=
  Session.loadWithin p r.room r.stem r.session

/-- The project path of the file that the request loaded. -/
def file? (p : Project) (r : Request) : Option Text :=
  match (r.result p).1 with
  | .loaded c => some (Path.toProject c)
  | _ => none

/-- The requests that are made on behalf of a request with room, at any remove. -/
def nestedWithin (p : Project) : (room : Nat) → Text → Session → List Request
  | 0, _, _ => []
  | room + 1, stem, s =>
    (Session.loadCalls p room stem s).flatMap
      (fun call => ⟨room, call.1, call.2⟩ :: nestedWithin p room call.1 call.2)

/-- The requests that are made on behalf of a request, at any remove. -/
def nested (p : Project) (r : Request) : List Request :=
  nestedWithin p r.room r.stem r.session

/-- The request with those made on its behalf. -/
def all (p : Project) (r : Request) : List Request :=
  r :: r.nested p

/-- The second request is made by the first. -/
inductive Makes (p : Project) : Request → Request → Prop where
  | call {room : Nat} {stem : Text} {s : Session} {call : Text × Session} :
      call ∈ Session.loadCalls p room stem s → Makes p ⟨room + 1, stem, s⟩ ⟨room, call.1, call.2⟩

variable {p : Project}

theorem Makes.room {parent child : Request} (h : Makes p parent child) :
    parent.room = child.room + 1 := by
  cases h
  rfl

theorem mem_nested_iff {r r' : Request} :
    r' ∈ r.nested p ↔ ∃ made, Makes p r made ∧ r' ∈ made.all p := by
  obtain ⟨room, stem, s⟩ := r
  cases room with
  | zero =>
    constructor
    · intro h
      cases h
    · rintro ⟨made, ⟨⟩, -⟩
  | succ room =>
    unfold nested nestedWithin
    rw [List.mem_flatMap]
    constructor
    · rintro ⟨call, hcall, h⟩
      exact ⟨_, .call hcall, h⟩
    · rintro ⟨made, ⟨hcall⟩, h⟩
      exact ⟨_, hcall, h⟩

theorem mem_all_of_makes {r made r' : Request} (hmakes : Makes p r made)
    (h : r' ∈ made.all p) : r' ∈ r.all p :=
  List.mem_cons_of_mem r (mem_nested_iff.2 ⟨made, hmakes, h⟩)

/-- The requests made on behalf of a request are those that it leads to, one making the next. -/
theorem mem_all_iff {r r' : Request} :
    r' ∈ r.all p ↔ Relation.ReflTransGen (Makes p) r r' := by
  constructor
  · -- A request that is made has less room, so the chain of requests ends.
    obtain ⟨room, stem, s⟩ := r
    induction room generalizing stem s with
    | zero =>
      intro h
      rw [all, List.mem_cons] at h
      rcases h with rfl | h
      · exact .refl
      · cases h
    | succ room ih =>
      intro h
      rw [all, List.mem_cons] at h
      rcases h with rfl | h
      · exact .refl
      · obtain ⟨made, hmakes, h⟩ := mem_nested_iff.1 h
        cases hmakes with
        | call hcall => exact .head (.call hcall) (ih _ _ h)
  · intro h
    induction h using Relation.ReflTransGen.head_induction_on with
    | refl => exact List.mem_cons_self
    | head hmakes _ ih => exact mem_all_of_makes hmakes ih

theorem mem_nested_of_makes {r parent child : Request} (hparent : parent ∈ r.all p)
    (hmakes : Makes p parent child) : child ∈ r.nested p := by
  obtain ⟨made, hmade, hrest⟩ :=
    Relation.TransGen.head'_iff.1 (Relation.TransGen.tail' (mem_all_iff.1 hparent) hmakes)
  exact mem_nested_iff.2 ⟨made, hmade, mem_all_iff.2 hrest⟩

/-- Where a request that another one makes comes from: the other one loaded a file, and found a
specifier in it. -/
theorem Makes.exists_specifier {parent child : Request} (h : Makes p parent child) :
    ∃ c content, p.probed? parent.stem = some c ∧ p.files.read c = .ok content ∧
      (parent.result p).1 = .loaded c ∧ Session.isScannable c = true ∧
      ∃ specifier ∈ p.specifiersIn content, ∃ t,
        Session.Evolves p parent.session t ∧
        (child.stem, child.session) ∈ Session.firstCalls (Session.loadWithin p child.room)
          (Specifier.stems t.aliases (Path.directory c) specifier) t ∧
        Session.Evolves p (child.result p).2 (parent.result p).2 := by
  cases h with
  | @call room stem s call hcall =>
    have hload (stem : Text) (s : Session) :
        Session.Evolves p s (Session.loadWithin p room stem s).2 :=
      Session.evolves_loadWithin room stem s
    cases Session.served p room stem s with
    | known t _ _ _ hcalls => rw [hcalls] at hcall; cases hcall
    | missed t _ _ _ hcalls => rw [hcalls] at hcall; cases hcall
    | opened t c content hquiet hprobed hread hresult hcalls =>
      rw [hcalls] at hcall
      obtain ⟨hscan, specifier, hspecifier, u, hu, hfirst, hafter⟩ :=
        Session.exists_of_mem_feedCalls hload hcall
      have hsuffix := Path.hasSuffix_of_mem_candidates
        (Project.mem_candidates_of_probed? hprobed)
      have hfeed := (Session.Change.feed t hread hsuffix).evolves
      refine ⟨c, content, hprobed, hread, ?_, hscan, specifier, hspecifier, u,
        (hquiet.evolves.trans hfeed).trans hu, hfirst, ?_⟩
      · rw [result, hresult]
      · rw [result, result, hresult]
        exact hafter

/-- A request is made after the one that it is made on behalf of, and it is served before. -/
theorem Makes.evolves {parent child : Request} (h : Makes p parent child) :
    Session.Evolves p parent.session child.session ∧
      Session.Evolves p (child.result p).2 (parent.result p).2 := by
  obtain ⟨c, content, -, -, -, -, specifier, -, t, ht, hfirst, hafter⟩ := h.exists_specifier
  have hload (stem : Text) (s : Session) :
      Session.Evolves p s (Session.loadWithin p child.room stem s).2 :=
    Session.evolves_loadWithin child.room stem s
  exact ⟨ht.trans (Session.evolves_of_mem_firstCalls hload hfirst).1, hafter⟩

theorem evolves_of_mem_all {r r' : Request} (h : r' ∈ r.all p) :
    Session.Evolves p r.session r'.session ∧
      Session.Evolves p (r'.result p).2 (r.result p).2 := by
  rw [mem_all_iff] at h
  induction h with
  | refl => exact ⟨.refl _, .refl _⟩
  | tail _ hmakes ih =>
    obtain ⟨hbefore, hafter⟩ := hmakes.evolves
    exact ⟨ih.1.trans hbefore, hafter.trans ih.2⟩

end Request

end SourceClosure
