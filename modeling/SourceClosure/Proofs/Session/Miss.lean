import SourceClosure.Proofs.Session.Depth

/-!
# Misses leave no trace

A request that does not load a file leaves the session as it found it, but for the questions that
were put to the store on its behalf (`alike_of_not_loaded`). No loader looks at these questions
(`oblivious_loadWithin`), so that a request after misses comes to what it would have come to before
them. Hence the stems of an aliased specifier are alternatives: of the first rule that matches, the
first stem that leads anywhere is loaded, the stems before it make no difference, and those behind it
are not tried (`follow_loads_first_hit`).
-/

namespace SourceClosure

namespace Session

variable {p : Project} {s t u : Session}

/-! ## Sessions that differ in their questions -/

/-- The sessions differ at most in the questions that they have put to the store. -/
def Alike (s t : Session) : Prop :=
  ∃ accesses, t = { s with accesses := accesses }

namespace Alike

theorem refl (s : Session) : Alike s s :=
  ⟨s.accesses, rfl⟩

theorem symm (h : Alike s t) : Alike t s := by
  obtain ⟨accesses, rfl⟩ := h
  exact ⟨s.accesses, rfl⟩

theorem trans (h : Alike s t) (h' : Alike t u) : Alike s u := by
  obtain ⟨accesses, rfl⟩ := h
  obtain ⟨accesses', rfl⟩ := h'
  exact ⟨accesses', rfl⟩

theorem note (h : Alike s t) (a : Access) : Alike s (t.note a) := by
  obtain ⟨accesses, rfl⟩ := h
  exact ⟨a :: accesses, rfl⟩

theorem has (h : Alike s t) (path : Text) : t.has path = s.has path := by
  obtain ⟨accesses, rfl⟩ := h
  rfl

theorem aliases (h : Alike s t) : t.aliases = s.aliases := by
  obtain ⟨accesses, rfl⟩ := h
  rfl

theorem register (h : Alike s t) (path content : Text) :
    Alike (s.register p path content).2 (t.register p path content).2 := by
  cases hs : s.has (Path.toProject path) with
  | true => rwa [register_of_has hs, register_of_has ((h.has _).trans hs)]
  | false =>
    rw [register_of_not_has hs, register_of_not_has ((h.has _).trans hs)]
    obtain ⟨accesses, rfl⟩ := h
    exact ⟨accesses, rfl⟩

theorem discover (h : Alike s t) (package : Text) :
    Alike (Session.discover package s) (Session.discover package t) := by
  obtain ⟨accesses, rfl⟩ := h
  unfold Session.discover isLoaded
  split
  · exact ⟨accesses, rfl⟩
  · exact ⟨accesses, rfl⟩

end Alike

theorem alike_probe (stem : Text) (s : Session) : Alike s (probe p stem s).2 :=
  exists_probeEach_eq _ s

/-! ## Loaders do not look at the questions -/

/-- What comes of a request to the loader does not depend on the questions that were put to the store
before. -/
def Oblivious (load : Text → Session → LoadOutcome × Session) : Prop :=
  ∀ stem s t, Alike s t →
    (load stem t).1 = (load stem s).1 ∧ Alike (load stem s).2 (load stem t).2

namespace Oblivious

variable {load : Text → Session → LoadOutcome × Session}

theorem loadFirst (hload : Oblivious load) (stems : List Text) (h : Alike s t) :
    Alike (Session.loadFirst load stems s) (Session.loadFirst load stems t) := by
  induction stems generalizing s t with
  | nil => exact h
  | cons stem stems ih =>
    obtain ⟨houtcome, hafter⟩ := hload stem s t h
    unfold Session.loadFirst
    dsimp only
    rw [houtcome]
    split
    · exact ih hafter
    · exact hafter

theorem follow (hload : Oblivious load) (directory specifier : Text) (h : Alike s t) :
    Alike (Session.follow load directory s specifier)
      (Session.follow load directory t specifier) := by
  unfold Session.follow
  rw [h.aliases]
  cases Specifier.kind s.aliases specifier with
  | relative => exact (hload _ s t h).2
  | aliased => exact hload.loadFirst _ h
  | external => exact h.discover _

theorem feed (hload : Oblivious load) (path content : Text) (h : Alike s t) :
    Alike (Session.feed p load path content s) (Session.feed p load path content t) := by
  have hspecifiers (specifiers : List Text) {s t : Session} (h : Alike s t) :
      Alike (specifiers.foldl (Session.follow load (Path.directory path)) s)
        (specifiers.foldl (Session.follow load (Path.directory path)) t) := by
    induction specifiers generalizing s t with
    | nil => exact h
    | cons specifier specifiers ih => exact ih (hload.follow _ specifier h)
  have hregister := h.register (p := p) path content
  unfold Session.feed
  dsimp only
  split
  · exact hspecifiers _ hregister
  · exact hregister

end Oblivious

theorem oblivious_loadWithin (room : Nat) : Oblivious (loadWithin p room) := by
  induction room with
  | zero =>
    intro stem s t h
    exact ⟨rfl, h⟩
  | succ room ih =>
    intro stem s t h
    have hprobed : Alike (probe p stem s).2 (probe p stem t).2 :=
      ((alike_probe stem s).symm.trans h).trans (alike_probe stem t)
    unfold loadWithin
    dsimp only
    rw [h.has, probe_fst, probe_fst]
    split
    · exact ⟨rfl, h⟩
    · split
      · exact ⟨rfl, hprobed⟩
      · next path _ =>
        rw [hprobed.has]
        split
        · exact ⟨rfl, hprobed⟩
        · have hnote : Alike ((probe p stem s).2.note (.read path))
              ((probe p stem t).2.note (.read path)) :=
            ((Alike.refl _).note _).symm.trans (hprobed.note _)
          split
          · exact ⟨rfl, hnote⟩
          · exact ⟨rfl, ih.feed path _ hnote⟩

/-! ## Requests that load nothing -/

/-- A request that loads no file leaves the session as it was, but for questions. -/
theorem alike_of_not_loaded {room : Nat} {stem : Text}
    (h : ∀ path, (loadWithin p room stem s).1 ≠ .loaded path) :
    Alike s (loadWithin p room stem s).2 := by
  cases room with
  | zero => exact .refl s
  | succ room =>
    have hprobe := alike_probe (p := p) stem s
    unfold loadWithin at h ⊢
    dsimp only at h ⊢
    split
    · exact .refl s
    · next hstem =>
      rw [if_neg hstem] at h
      split
      · exact hprobe
      · next path hpath =>
        rw [hpath] at h
        dsimp only at h
        split
        · exact hprobe
        · next hknown =>
          rw [if_neg hknown] at h
          split
          · exact hprobe.note _
          · next hread =>
            rw [hread] at h
            exact absurd rfl (h path)

/-- The stem leads somewhere: it is in the corpus, or it stands for a file that is in the corpus or
can be read. -/
def Hits (p : Project) (s : Session) (stem : Text) : Prop :=
  s.has stem = true ∨ ∃ c, p.probed? stem = some c ∧
    (s.has c = true ∨ ∃ content, p.files.read c = .ok content)

/-- A request with room misses exactly the stems that lead nowhere. -/
theorem notFound_iff_not_hits (room : Nat) {stem : Text} :
    (loadWithin p (room + 1) stem s).1 = .notFound ↔ ¬ Hits p s stem := by
  unfold loadWithin Hits
  dsimp only
  rw [probe_fst]
  cases s.has stem with
  | true => simp
  | false =>
    cases p.probed? stem with
    | none => simp
    | some c =>
      have hprobe := (alike_probe (p := p) stem s).has c
      cases hc : s.has c with
      | true => simp [hprobe, hc]
      | false => cases hread : p.files.read c <;> simp [hprobe, hc, hread]

instance (p : Project) (s : Session) (stem : Text) : Decidable (Hits p s stem) :=
  decidable_of_iff (¬ (loadWithin p 1 stem s).1 = .notFound)
    ((not_congr (notFound_iff_not_hits 0)).trans not_not)

/-! ## Alternatives -/

/-- The loader does not look at questions, and a miss changes nothing else. -/
structure Forgives (load : Text → Session → LoadOutcome × Session) : Prop where
  oblivious : Oblivious load
  miss : ∀ {stem s}, (load stem s).1 = .notFound → Alike s (load stem s).2

theorem forgives_loadWithin (room : Nat) : Forgives (loadWithin p room) where
  oblivious := oblivious_loadWithin room
  miss h := alike_of_not_loaded (by simp [h])

namespace Forgives

variable {load : Text → Session → LoadOutcome × Session}

/-- A request after a miss answers what it would have answered before. -/
theorem outcome_after (h : Forgives load) {missed : Text}
    (hmissed : (load missed s).1 = .notFound) (stem : Text) :
    (load stem (load missed s).2).1 = (load stem s).1 :=
  (h.oblivious stem _ _ (h.miss hmissed)).1

/-- Stems that all miss come to nothing. -/
theorem loadFirst_of_misses (h : Forgives load) {stems : List Text}
    (hstems : ∀ stem ∈ stems, (load stem s).1 = .notFound) : Alike s (loadFirst load stems s) := by
  induction stems generalizing s with
  | nil => exact .refl s
  | cons missed stems ih =>
    have hmissed := hstems missed List.mem_cons_self
    unfold loadFirst
    dsimp only
    rw [if_pos hmissed]
    refine (h.miss hmissed).trans (ih fun stem hstem => ?_)
    rw [h.outcome_after hmissed]
    exact hstems stem (List.mem_cons_of_mem _ hstem)

/-- Behind stems that miss, the first one that does not comes to what it would come to alone. Those
behind it are not tried, and the others are tried in sessions that differ only in questions. -/
theorem loadFirst_of_hit (h : Forgives load) {early : List Text} {stem : Text} (late : List Text)
    (hearly : ∀ e ∈ early, (load e s).1 = .notFound) (hstem : (load stem s).1 ≠ .notFound) :
    Alike (load stem s).2 (loadFirst load (early ++ stem :: late) s) ∧
      (firstCalls load (early ++ stem :: late) s).map Prod.fst = early ++ [stem] ∧
      ∀ call ∈ firstCalls load (early ++ stem :: late) s, Alike s call.2 := by
  induction early generalizing s with
  | nil => simp [loadFirst, firstCalls, hstem, Alike.refl]
  | cons missed early ih =>
    have hmissed := hearly missed List.mem_cons_self
    have hquiet := h.miss hmissed
    have hearly' : ∀ e ∈ early, (load e (load missed s).2).1 = .notFound := by
      intro e he
      rw [h.outcome_after hmissed]
      exact hearly e (List.mem_cons_of_mem _ he)
    have hstem' : (load stem (load missed s).2).1 ≠ .notFound := by
      rwa [h.outcome_after hmissed]
    obtain ⟨hresult, htried, halike⟩ := ih hearly' hstem'
    rw [List.cons_append]
    unfold loadFirst firstCalls
    dsimp only
    rw [if_pos hmissed, if_pos hmissed]
    refine ⟨(h.oblivious stem _ _ hquiet).2.trans hresult, ?_, fun call hcall => ?_⟩
    · rw [List.map_cons, htried, List.cons_append]
    · rcases List.mem_cons.1 hcall with rfl | hcall
      · exact .refl s
      · exact hquiet.trans (halike call hcall)

end Forgives

end Session

/-- The rule is the first one of the resolver that matches the specifier, and this is what it
captures. -/
def AliasResolver.Decides (r : AliasResolver) (rule : AliasRule) (captured specifier : Text) : Prop :=
  ∃ before after, r.rules = before ++ rule :: after ∧
    (∀ earlier ∈ before, earlier.pattern.capture? specifier = none) ∧
    rule.pattern.capture? specifier = some captured

theorem AliasResolver.Decides.aliasStems {r : AliasResolver} {rule : AliasRule}
    {captured specifier : Text} (h : r.Decides rule captured specifier) :
    Session.aliasStems r specifier = rule.targets.map (r.substitute captured) := by
  obtain ⟨before, after, hrules, hbefore, hcaptured⟩ := h
  have hcandidates : r.candidates? specifier = some (rule.targets.map (r.substitute captured)) := by
    unfold candidates?
    rw [List.findSome?_eq_some_iff]
    refine ⟨before, rule, after, hrules, by rw [hcaptured, Option.map_some], ?_⟩
    intro earlier hearlier
    rw [hbefore earlier hearlier, Option.map_none]
  rw [Session.aliasStems, hcandidates, Option.getD_some]

namespace Session

/-! ## Main result -/

/-- A request that loads no file leaves the session as it was, but for the questions that were put to
the store. Hence of the first rule that matches an aliased specifier, the first stem that leads
anywhere decides: to follow the specifier, in a file that was loaded `depth` files down, is to load
that stem. As long as there is room, the stems before it are tried without effect and those behind it
are not tried. If no stem of that rule leads anywhere, nothing happens, whatever later rules say. -/
theorem follow_loads_first_hit (p : Project) (s : Session) :
    (∀ path depth, (∀ file, (loadSource p path depth s).1 ≠ .loaded file) →
      Alike s (loadSource p path depth s).2) ∧
    ∀ directory specifier depth rule captured,
      Specifier.kind s.aliases specifier = .aliased → s.aliases.Decides rule captured specifier →
      let stems := rule.targets.map (s.aliases.substitute captured)
      let load := loadWithin p (p.settings.maxSourceDepth - (depth + 1))
      ((∀ stem ∈ stems, ¬ Hits p s stem) → Alike s (follow load directory s specifier)) ∧
      ∀ early stem late, stems = early ++ stem :: late → (∀ e ∈ early, ¬ Hits p s e) →
        Hits p s stem →
        Alike (loadSource p stem (depth + 1) s).2 (follow load directory s specifier) ∧
        (depth + 1 < p.settings.maxSourceDepth →
          (firstCalls load stems s).map Prod.fst = early ++ [stem] ∧
          ∀ call ∈ firstCalls load stems s, Alike s call.2) := by
  refine ⟨fun path depth hloaded => alike_of_not_loaded hloaded, ?_⟩
  intro directory specifier depth rule captured hkind hrule stems load
  have hstems : aliasStems s.aliases specifier = stems := hrule.aliasStems
  have hfollow : follow load directory s specifier = loadFirst load stems s := by
    rw [follow, hkind, hstems]
  have hload (stem : Text) (hmem : stem ∈ stems) :
      loadSource p stem (depth + 1) s = load stem s := by
    rw [loadSource, toProject_of_mem_aliasStems (hstems ▸ hmem)]
  rw [hfollow]
  rcases Nat.eq_zero_or_eq_succ_pred (p.settings.maxSourceDepth - (depth + 1)) with hroom | hroom
  · have hnone (stems : List Text) : loadFirst load stems s = s := by
      change loadFirst (loadWithin p _) stems s = s
      rw [hroom, loadFirst_loadWithin_zero]
    refine ⟨fun _ => (hnone stems).symm ▸ .refl s, ?_⟩
    intro early stem late hsplit _ _
    refine ⟨?_, fun hdepth => by omega⟩
    rw [hload stem (by rw [hsplit]; simp), hnone]
    change Alike (loadWithin p _ stem s).2 s
    rw [hroom]
    exact .refl s
  · have hforgives : Forgives load := forgives_loadWithin _
    have hmisses (stem : Text) : (load stem s).1 = .notFound ↔ ¬ Hits p s stem := by
      change (loadWithin p _ stem s).1 = .notFound ↔ _
      rw [hroom]
      exact notFound_iff_not_hits _
    refine ⟨fun hall => hforgives.loadFirst_of_misses fun stem hmem => ?_, ?_⟩
    · exact (hmisses stem).2 (hall stem hmem)
    · intro early stem late hsplit hearly hstem
      have hhit := hforgives.loadFirst_of_hit late
        (fun e he => (hmisses e).2 (hearly e he)) (fun h => (hmisses stem).1 h hstem)
      rw [hload stem (by rw [hsplit]; simp), hsplit]
      exact ⟨hhit.1, fun _ => hhit.2⟩

/-- A project with one file for each of two names. -/
def twoNames : Project :=
  (Tree.ofFiles [("lib/menu.ts".toList, []), ("src/b/ui.ts".toList, [])]).project (fun _ => [])
    { maxSourceDepth := 3 }

/-- What specifiers are looked for first: in two folders, of which one is missing. -/
def inTwoFolders : AliasRule :=
  ⟨.around "@/".toList [], ["src/a/*".toList, "src/b/*".toList]⟩

/-- A session in which a later rule would look in another folder. -/
def aliased : Session :=
  { config := { Config.default with
      aliases := ⟨[], [inTwoFolders, ⟨.around "@/".toList [], ["lib/*".toList]⟩]⟩ } }

theorem decides_inTwoFolders (name : Text) :
    aliased.aliases.Decides inTwoFolders name ("@/".toList ++ name) := by
  refine ⟨[], _, rfl, by simp, ?_⟩
  simp [inTwoFolders, AliasPattern.capture?, Text.after?, Text.before?]

set_option maxRecDepth 20000 in
/-- The file that is found in the second folder is loaded, and the name that only the later rule could
have found is not. -/
theorem follow_loads_second_folder :
    let load := loadWithin twoNames (twoNames.settings.maxSourceDepth - (0 + 1))
    (loadSource twoNames "src/a/ui".toList 1 aliased).1 = .notFound ∧
      Alike aliased (loadSource twoNames "src/a/ui".toList 1 aliased).2 ∧
      Alike (loadSource twoNames "src/b/ui".toList 1 aliased).2
        (follow load [] aliased "@/ui".toList) ∧
      (firstCalls load ["src/a/ui".toList, "src/b/ui".toList] aliased).map Prod.fst =
        ["src/a/ui".toList, "src/b/ui".toList] ∧
      Hits twoNames aliased "lib/menu".toList ∧
      Alike aliased (follow load [] aliased "@/menu".toList) := by
  intro load
  obtain ⟨hquiet, hfollow⟩ := follow_loads_first_hit twoNames aliased
  have hmiss : (loadSource twoNames "src/a/ui".toList 1 aliased).1 = .notFound := by decide
  obtain ⟨-, hui⟩ := hfollow [] "@/ui".toList 0 inTwoFolders "ui".toList (by decide)
    (decides_inTwoFolders _)
  obtain ⟨hsame, htried⟩ := hui ["src/a/ui".toList] "src/b/ui".toList [] (by decide) (by decide)
    (by decide)
  obtain ⟨hmenu, -⟩ := hfollow [] "@/menu".toList 0 inTwoFolders "menu".toList (by decide)
    (decides_inTwoFolders _)
  refine ⟨hmiss, hquiet _ _ (fun file hfile => ?_), hsame, (htried (by decide)).1, by decide,
    hmenu (by decide)⟩
  rw [hmiss] at hfile
  cases hfile

end Session

end SourceClosure
