import Mathlib.Tactic.Tauto
import SourceClosure.Proofs.Session.Load

/-!
# Packages that sources mention

Loading sources asks for no package: it only queues the packages of the external specifiers that it
meets, unless they were asked for before, and never takes one out of the queue. So the queue after a
request is the one before it, followed by packages that the files mention which were scanned for the
request (`Request.notes_result`); and as the packages that were asked for stay the same as well, all
that the files mention is queued in the end, or was asked for before.
-/

namespace SourceClosure

namespace Session

variable {p : Project} {s t u : Session}

/-! ## Queueing packages -/

/-- The second session comes of the first by queueing those of the named packages that have a name
and were neither queued nor asked for before. -/
structure Notes (named : Text → Prop) (s t : Session) : Prop where
  config : t.config = s.config
  loaded : t.loaded = s.loaded
  grows : s.discovered <+: t.discovered
  mem_iff : ∀ n, n ∈ t.discovered ↔ n ∈ s.discovered ∨ n ≠ [] ∧ n ∉ s.loaded ∧ named n
  nodup : s.discovered.Nodup → t.discovered.Nodup

namespace Notes

variable {named named' : Text → Prop}

theorem of_eq (hconfig : t.config = s.config) (hloaded : t.loaded = s.loaded)
    (hdiscovered : t.discovered = s.discovered) : Notes (fun _ => False) s t where
  config := hconfig
  loaded := hloaded
  grows := hdiscovered ▸ List.prefix_refl _
  mem_iff n := by simp [hdiscovered]
  nodup h := hdiscovered ▸ h

theorem refl (s : Session) : Notes (fun _ => False) s s :=
  of_eq rfl rfl rfl

theorem trans (h : Notes named s t) (h' : Notes named' t u) :
    Notes (fun n => named n ∨ named' n) s u where
  config := h'.config.trans h.config
  loaded := h'.loaded.trans h.loaded
  grows := h.grows.trans h'.grows
  mem_iff n := by
    rw [h'.mem_iff, h.mem_iff, h.loaded]
    tauto
  nodup hs := h'.nodup (h.nodup hs)

theorem congr (h : Notes named s t) (hiff : ∀ n, named' n ↔ named n) : Notes named' s t :=
  { h with mem_iff := fun n => by rw [h.mem_iff, hiff] }

theorem aliases (h : Notes named s t) : t.aliases = s.aliases := by
  rw [Session.aliases, Session.aliases, h.config]

/-- Every named package with a name is known in the end. -/
theorem mem_of_named (h : Notes named s t) {n : Text} (hn : named n) (hne : n ≠ []) :
    n ∈ t.discovered ∨ n ∈ t.loaded := by
  rw [h.loaded]
  by_cases hloaded : n ∈ s.loaded
  · exact .inr hloaded
  · exact .inl ((h.mem_iff n).2 (.inr ⟨hne, hloaded, hn⟩))

end Notes

theorem Quiet.notes (h : Quiet p s t) : Notes (fun _ => False) s t :=
  .of_eq h.evolves.config h.loaded h.discovered

theorem notes_register (p : Project) (path content : Text) (s : Session) :
    Notes (fun _ => False) s (s.register p path content).2 := by
  cases hhas : s.has (Path.toProject path) with
  | true =>
    rw [register_of_has hhas]
    exact .refl s
  | false =>
    rw [register_of_not_has hhas]
    exact .of_eq rfl rfl rfl

theorem notes_discover (package : Text) (s : Session) :
    Notes (fun n => n = package) s (discover package s) := by
  unfold discover isLoaded
  split
  · next h =>
    -- Nothing is queued, since the package has no name or is known.
    refine ⟨rfl, rfl, List.prefix_refl _, fun n => ⟨.inl, ?_⟩, id⟩
    rintro (hn | ⟨hne, hnew, rfl⟩)
    · exact hn
    · simpa [hne, hnew] using h
  · next h =>
    simp only [List.contains_eq_mem, decide_eq_true_eq, not_or] at h
    obtain ⟨hne, hnew, hfree⟩ := h
    refine ⟨rfl, rfl, List.prefix_append _ _, fun n => ?_, fun hnodup => ?_⟩
    · rw [List.mem_append, List.mem_singleton]
      refine or_congr_right ⟨?_, fun h => h.2.2⟩
      rintro rfl
      exact ⟨hne, hnew, rfl⟩
    · refine List.nodup_append.2 ⟨hnodup, by simp, fun a ha b hb hab => hfree ?_⟩
      rw [List.mem_singleton] at hb
      exact hb ▸ hab ▸ ha

/-! ## Following specifiers -/

section Calls

variable {load : Text → Session → LoadOutcome × Session} {named : Text → Session → Text → Prop}
  (hload : ∀ stem s, Notes (named stem s) s (load stem s).2)

include hload

theorem notes_loadFirst (stems : List Text) (s : Session) :
    Notes (fun n => ∃ call ∈ firstCalls load stems s, named call.1 call.2 n) s
      (loadFirst load stems s) := by
  induction stems generalizing s with
  | nil => exact (Notes.refl s).congr (by simp [firstCalls])
  | cons stem stems ih =>
    unfold loadFirst firstCalls
    dsimp only
    split
    · exact ((hload stem s).trans (ih _)).congr (by simp)
    · exact (hload stem s).congr (by simp)

/-- Following specifiers queues the packages of the external ones, and what the calls for the others
queue. -/
theorem notes_foldl_follow (directory : Text) (specifiers : List Text) (s : Session) :
    Notes (fun n =>
        (∃ x ∈ specifiers, Specifier.kind s.aliases x = .external ∧ Specifier.packageName x = n) ∨
        ∃ call ∈ followCalls load directory specifiers s, named call.1 call.2 n) s
      (specifiers.foldl (follow load directory) s) := by
  induction specifiers generalizing s with
  | nil => exact (Notes.refl s).congr (by simp [followCalls])
  | cons x specifiers ih =>
    have hrest := ih (follow load directory s x)
    rw [List.foldl_cons]
    by_cases hkind : Specifier.kind s.aliases x = .external
    · have hfollow :
          Notes (fun n => n = Specifier.packageName x) s (follow load directory s x) := by
        rw [follow_eq_discover hkind]
        exact notes_discover _ s
      have hcalls : firstCalls load (Specifier.stems s.aliases directory x) s = [] := by
        rw [Specifier.stems, hkind]
        rfl
      refine (hfollow.trans hrest).congr fun n => ?_
      rw [hfollow.aliases]
      simp only [followCalls, hcalls, List.nil_append, List.mem_cons, exists_eq_or_imp, hkind,
        true_and, or_assoc, eq_comm (a := n)]
    · have hfollow := notes_loadFirst hload (Specifier.stems s.aliases directory x) s
      rw [← follow_eq_loadFirst hkind] at hfollow
      refine (hfollow.trans hrest).congr fun n => ?_
      rw [hfollow.aliases]
      simp only [followCalls, List.mem_append, or_and_right, exists_or, List.mem_cons,
        exists_eq_left, hkind, false_and, false_or]
      exact or_left_comm

theorem notes_feed (path content : Text) (s : Session) :
    Notes (fun n =>
        (isScannable path = true ∧ ∃ x ∈ p.specifiersIn content,
          Specifier.kind s.aliases x = .external ∧ Specifier.packageName x = n) ∨
        ∃ call ∈ feedCalls p load path content s, named call.1 call.2 n) s
      (feed p load path content s) := by
  have hregister := notes_register p path content s
  unfold feed feedCalls
  dsimp only
  split
  · next hscan =>
    have hfollow := notes_foldl_follow hload (Path.directory path) (p.specifiersIn content)
      (s.register p path content).2
    rw [hregister.aliases] at hfollow
    exact (hregister.trans hfollow).congr (by simp [hscan])
  · next hscan => exact hregister.congr (by simp [hscan])

end Calls

end Session

/-! ## Requests -/

namespace Request

open Session

variable {p : Project} {r : Request}

/-- The request loads a file with this content and looks for specifiers in it. -/
def Scans (p : Project) (r : Request) (path content : Text) : Prop :=
  (r.result p).1 = .loaded path ∧ p.files.read path = .ok content ∧ isScannable path = true

/-- The request loads a file that mentions the package by an external specifier. -/
def Mentions (p : Project) (r : Request) (package : Text) : Prop :=
  ∃ path content, r.Scans p path content ∧ ∃ x ∈ p.specifiersIn content,
    Specifier.kind r.session.aliases x = .external ∧ Specifier.packageName x = package

/-- A request that loads no file mentions nothing. -/
theorem not_mentions {n : Text} (h : ∀ path, (r.result p).1 ≠ .loaded path) :
    ¬ r.Mentions p n := by
  rintro ⟨path, -, ⟨hloaded, -⟩, -⟩
  exact h path hloaded

theorem mentions_iff {path content n : Text} (hloaded : (r.result p).1 = .loaded path)
    (hread : p.files.read path = .ok content) :
    r.Mentions p n ↔ isScannable path = true ∧ ∃ x ∈ p.specifiersIn content,
      Specifier.kind r.session.aliases x = .external ∧ Specifier.packageName x = n := by
  constructor
  · rintro ⟨path', content', ⟨hloaded', hread', hscan⟩, hx⟩
    rw [hloaded, LoadOutcome.loaded.injEq] at hloaded'
    subst hloaded'
    rw [hread, Except.ok.injEq] at hread'
    exact ⟨hscan, hread' ▸ hx⟩
  · rintro ⟨hscan, hx⟩
    exact ⟨path, content, ⟨hloaded, hread, hscan⟩, hx⟩

/-- What holds of one of the requests made for a request with room holds of that request, or of one
that is made for one of its calls. -/
theorem exists_mem_all_iff {P : Request → Prop} {room : Nat} {stem : Text} {s : Session} :
    (∃ made ∈ (⟨room + 1, stem, s⟩ : Request).all p, P made) ↔ P ⟨room + 1, stem, s⟩ ∨
      ∃ call ∈ loadCalls p room stem s,
        ∃ made ∈ (⟨room, call.1, call.2⟩ : Request).all p, P made := by
  simp only [all, nested, nestedWithin, List.mem_cons, exists_eq_or_imp, List.mem_flatMap]
  refine or_congr_right ⟨?_, ?_⟩
  · rintro ⟨made, ⟨call, hcall, rfl | hmade⟩, hP⟩
    · exact ⟨call, hcall, .inl hP⟩
    · exact ⟨call, hcall, .inr ⟨made, hmade, hP⟩⟩
  · rintro ⟨call, hcall, hP | ⟨made, hmade, hP⟩⟩
    · exact ⟨_, ⟨call, hcall, .inl rfl⟩, hP⟩
    · exact ⟨made, ⟨call, hcall, .inr hmade⟩, hP⟩

/-- A request queues the packages that are mentioned by it or on its behalf. -/
theorem notes_result (p : Project) (r : Request) :
    Notes (fun n => ∃ made ∈ r.all p, made.Mentions p n) r.session (r.result p).2 := by
  obtain ⟨room, stem, s⟩ := r
  induction room generalizing stem s with
  | zero =>
    refine (Notes.refl s).congr fun n => ?_
    have hnot : ¬ (⟨0, stem, s⟩ : Request).Mentions p n :=
      not_mentions fun path h => by cases h
    simpa [all, nested, nestedWithin] using hnot
  | succ room ih =>
    have hidle {outcome : LoadOutcome} {t : Session} (hquiet : Quiet p s t)
        (hresult : loadWithin p (room + 1) stem s = (outcome, t))
        (hcalls : loadCalls p room stem s = []) (hloaded : ∀ path, outcome ≠ .loaded path) :
        Notes (fun n => ∃ made ∈ (⟨room + 1, stem, s⟩ : Request).all p, made.Mentions p n) s
          (loadWithin p (room + 1) stem s).2 := by
      rw [hresult]
      refine hquiet.notes.congr fun n => ?_
      have hnot : ¬ (⟨room + 1, stem, s⟩ : Request).Mentions p n :=
        not_mentions (by rwa [result, hresult])
      rw [exists_mem_all_iff, hcalls]
      simpa using hnot
    cases served p room stem s with
    | known t hquiet _ hresult hcalls => exact hidle hquiet hresult hcalls (by simp)
    | missed t hquiet _ hresult hcalls => exact hidle hquiet hresult hcalls (by simp)
    | opened t c content hquiet _ hread hresult hcalls =>
      have hfeed := notes_feed (p := p) (fun stem s => ih stem s) c content t
      have hloaded : ((⟨room + 1, stem, s⟩ : Request).result p).1 = .loaded c := by
        rw [result, hresult]
      rw [result, hresult]
      refine (hquiet.notes.trans hfeed).congr fun n => ?_
      rw [exists_mem_all_iff, mentions_iff hloaded hread, hcalls, false_or, hquiet.notes.aliases]
      rfl

/-- Once a request is served, the file that it scanned is in the corpus: as it was read, or as it
was there before. -/
theorem Scans.registered {path content : Text} (h : r.Scans p path content) :
    ⟨Path.toProject path, content⟩ ∈ (r.result p).2.corpus ∨
      r.session.has (Path.toProject path) = true := by
  obtain ⟨hloaded, hread, -⟩ := h
  obtain ⟨room, t, content', -, hquiet, -, hread', hresult, -⟩ := exists_opened_of_loaded hloaded
  obtain rfl : content = content' := Except.ok.inj (hread.symm.trans hread')
  rw [hresult]
  cases hhas : t.has (Path.toProject path) with
  | true => exact .inr (hquiet.has _ ▸ hhas)
  | false =>
    have hfeed := evolves_feed_register (p := p) (evolves_loadWithin room) path content t
    have hgrows := hfeed.corpus_grows
    rw [register_of_not_has hhas] at hgrows
    exact .inl (hgrows.subset (List.mem_append_right _ (List.mem_singleton_self _)))

end Request

end SourceClosure
