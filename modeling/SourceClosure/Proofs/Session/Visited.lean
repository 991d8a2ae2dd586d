import Mathlib.Data.List.Chain
import SourceClosure.Specifier.Scan
import SourceClosure.Proofs.Path.Plain
import SourceClosure.Proofs.Session.Load

/-!
# The corpus as the visited set

A request goes by the corpus to tell whether a file was there before, and compares it with stems
and candidates as they are spelled. Files are registered under their project paths. As long as all
stems are plain the two spellings agree: then every file is read and searched once at most, and
requests are nested no deeper than there are files, however much room there is. A stem that is not
plain has candidates that the corpus never holds, so a file that asks for itself by such a stem is
loaded until the room is used up.
-/

namespace SourceClosure

namespace Session

variable {p : Project} {load : Text → Session → LoadOutcome × Session}

/-! ## The order of calls -/

section Order

variable (hload : ∀ stem s, Evolves p s (load stem s).2)

include hload

/-- Of two stems that are tried, the later one is tried in what came of the earlier one. -/
theorem pairwise_firstCalls (stems : List Text) (s : Session) :
    (firstCalls load stems s).Pairwise (fun a b => Evolves p (load a.1 a.2).2 b.2) := by
  induction stems generalizing s with
  | nil => exact .nil
  | cons stem stems ih =>
    unfold firstCalls
    dsimp only
    split
    · refine List.pairwise_cons.2 ⟨fun b hb => ?_, ih _⟩
      exact (evolves_of_mem_firstCalls hload hb).1
    · exact List.pairwise_singleton _ _

theorem pairwise_followCalls (directory : Text) (specifiers : List Text) (s : Session) :
    (followCalls load directory specifiers s).Pairwise
      (fun a b => Evolves p (load a.1 a.2).2 b.2) := by
  induction specifiers generalizing s with
  | nil => exact .nil
  | cons specifier specifiers ih =>
    unfold followCalls
    refine List.pairwise_append.2 ⟨pairwise_firstCalls hload _ s, ih _, ?_⟩
    intro a ha b hb
    have hkind : Specifier.kind s.aliases specifier ≠ .external := by
      intro hkind
      rw [Specifier.stems, hkind] at ha
      cases ha
    have hafter := (evolves_of_mem_firstCalls hload ha).2
    rw [← follow_eq_loadFirst hkind] at hafter
    obtain ⟨_, -, t, ht, hfirst, -⟩ := exists_of_mem_followCalls hload hb
    exact (hafter.trans ht).trans (evolves_of_mem_firstCalls hload hfirst).1

theorem pairwise_feedCalls (path content : Text) (s : Session) :
    (feedCalls p load path content s).Pairwise (fun a b => Evolves p (load a.1 a.2).2 b.2) := by
  unfold feedCalls
  dsimp only
  split
  · exact pairwise_followCalls hload _ _ _
  · exact .nil

end Order

/-- Of two requests that a request makes, the later one is made in what came of the earlier one. -/
theorem pairwise_loadCalls (room : Nat) (stem : Text) (s : Session) :
    (loadCalls p room stem s).Pairwise
      (fun a b => Evolves p (loadWithin p room a.1 a.2).2 b.2) := by
  cases served p room stem s with
  | known _ _ _ _ hcalls => exact hcalls ▸ .nil
  | missed _ _ _ _ hcalls => exact hcalls ▸ .nil
  | opened _ _ _ _ _ _ _ hcalls =>
    exact hcalls ▸ pairwise_feedCalls (evolves_loadWithin room) _ _ _

/-! ## What is read -/

theorem reads_note (s : Session) (a : Access) :
    (s.note a).reads = s.reads ++ (a.read?.map Path.toProject).toList := by
  cases a <;> simp [reads, note, Access.reads, Access.read?]

theorem reads_register (path content : Text) (s : Session) :
    (s.register p path content).2.reads = s.reads := by
  unfold register
  dsimp only
  split <;> rfl

theorem reads_discover (package : Text) (s : Session) : (discover package s).reads = s.reads := by
  unfold discover
  split <;> rfl

theorem reads_probe (stem : Text) (s : Session) : (probe p stem s).2.reads = s.reads := by
  have heach (candidates : List Text) (s : Session) :
      (probeEach p candidates s).2.reads = s.reads := by
    induction candidates generalizing s with
    | nil => rfl
    | cons c candidates ih =>
      have hnote : (s.note (.isFile c)).reads = s.reads := by simp [reads_note, Access.read?]
      unfold probeEach
      split
      · exact hnote
      · rw [ih, hnote]
  exact heach _ s

/-- If every call reads the files of some list, then trying stems reads these lists in order. -/
theorem reads_loadFirst {files : Text × Session → List Text} {stems : List Text} {s : Session}
    (hcall : ∀ call ∈ firstCalls load stems s,
      (load call.1 call.2).2.reads = call.2.reads ++ files call) :
    (loadFirst load stems s).reads = s.reads ++ (firstCalls load stems s).flatMap files := by
  induction stems generalizing s with
  | nil => simp [loadFirst, firstCalls]
  | cons stem stems ih =>
    have hfirst : (load stem s).2.reads = s.reads ++ files (stem, s) :=
      hcall (stem, s) (by simp [firstCalls])
    unfold loadFirst firstCalls
    dsimp only
    split
    · next hmiss =>
      rw [ih (fun call h => hcall call (by simp [firstCalls, hmiss, h])), hfirst,
        List.flatMap_cons, List.append_assoc]
    · rw [hfirst, List.flatMap_singleton]

theorem reads_foldl_follow {files : Text × Session → List Text} {directory : Text}
    {specifiers : List Text} {s : Session}
    (hcall : ∀ call ∈ followCalls load directory specifiers s,
      (load call.1 call.2).2.reads = call.2.reads ++ files call) :
    (specifiers.foldl (follow load directory) s).reads =
      s.reads ++ (followCalls load directory specifiers s).flatMap files := by
  induction specifiers generalizing s with
  | nil => simp [followCalls]
  | cons specifier specifiers ih =>
    have hfollow : (follow load directory s specifier).reads =
        s.reads ++
          (firstCalls load (Specifier.stems s.aliases directory specifier) s).flatMap files := by
      by_cases hkind : Specifier.kind s.aliases specifier = .external
      · rw [follow_eq_discover hkind, reads_discover]
        simp [Specifier.stems, hkind, firstCalls]
      · rw [follow_eq_loadFirst hkind]
        exact reads_loadFirst (fun call h => hcall call (List.mem_append_left _ h))
    rw [List.foldl_cons, ih (fun call h => hcall call (List.mem_append_right _ h)), hfollow,
      followCalls, List.flatMap_append, List.append_assoc]

theorem reads_feed {files : Text × Session → List Text} {path content : Text} {s : Session}
    (hcall : ∀ call ∈ feedCalls p load path content s,
      (load call.1 call.2).2.reads = call.2.reads ++ files call) :
    (feed p load path content s).reads =
      s.reads ++ (feedCalls p load path content s).flatMap files := by
  unfold feed
  unfold feedCalls at hcall ⊢
  dsimp only at hcall ⊢
  split
  · next hscan =>
    rw [if_pos hscan] at hcall
    rw [reads_foldl_follow hcall, reads_register]
  · rw [reads_register, List.flatMap_nil, List.append_nil]

end Session

/-! ## Requests -/

namespace Request

open Session

variable {p : Project}

/-! ### Loading -/

/-- A request that loads a file found neither its stem nor the candidate that it opens in the
corpus. -/
theorem not_has_of_loaded {r : Request} {c : Text} (h : (r.result p).1 = .loaded c) :
    r.session.has r.stem = false ∧ r.session.has c = false := by
  obtain ⟨room, stem, s⟩ := r
  cases room with
  | zero => cases h
  | succ room =>
    unfold result loadWithin at h
    dsimp only at h ⊢
    split at h
    · cases h
    · next hstem =>
      split at h
      · cases h
      · split at h
        · cases h
        · next hpath =>
          rw [(quiet_probe stem s).has] at hpath
          split at h
          · cases h
          · cases h
            exact ⟨Bool.not_eq_true _ ▸ hstem, Bool.not_eq_true _ ▸ hpath⟩

/-- A file that was loaded is in the corpus. -/
theorem has_of_file? {r : Request} {f : Text} (h : r.file? p = some f) :
    (r.result p).2.has f = true := by
  obtain ⟨room, t, c, content, -, -, -, -, rfl, hresult, -⟩ := exists_opened h
  rw [hresult]
  refine (evolves_feed_register (evolves_loadWithin room) c content t).has ?_
  exact has_register_iff.2 (.inr rfl)

theorem probed?_of_loaded {r : Request} {c : Text} (h : (r.result p).1 = .loaded c) :
    p.probed? r.stem = some c := by
  obtain ⟨-, -, -, -, -, hprobed, -⟩ := exists_opened_of_loaded h
  exact hprobed

/-- A request for a project path that finds its file, if any, under the file's project path. -/
structure Plain (p : Project) (r : Request) : Prop where
  project : Path.toProject r.stem = r.stem
  found : ∀ c ∈ p.probed? r.stem, Path.toProject c = c

/-- A file that a plain request loads was not in the corpus. -/
theorem Plain.not_has_of_file? {r : Request} (hr : r.Plain p) {f : Text}
    (h : r.file? p = some f) : r.session.has f = false := by
  obtain ⟨c, hloaded, rfl⟩ := file?_eq_some_iff.1 h
  rw [hr.found c (probed?_of_loaded hloaded)]
  exact (not_has_of_loaded hloaded).2

/-! ### The order of requests -/

/-- What a request loads is in the corpus when it makes others. -/
theorem Makes.has_of_file? {parent child : Request} (hmakes : Makes p parent child) {f : Text}
    (hf : parent.file? p = some f) : child.session.has f = true := by
  cases hmakes with
  | @call room stem s call hcall =>
    cases served p room stem s with
    | known _ _ _ _ hcalls => rw [hcalls] at hcall; cases hcall
    | missed _ _ _ _ hcalls => rw [hcalls] at hcall; cases hcall
    | opened t c content _ _ _ hresult hcalls =>
      have hc : Path.toProject c = f := by
        rw [file?, result, hresult] at hf
        exact Option.some_inj.1 hf
      rw [hcalls] at hcall
      obtain ⟨-, _, -, u, hu, hfirst, -⟩ :=
        exists_of_mem_feedCalls (evolves_loadWithin room) hcall
      refine (hu.trans (evolves_of_mem_firstCalls (evolves_loadWithin room) hfirst).1).has ?_
      exact has_register_iff.2 (.inr hc)

/-- What a request loads is in the corpus when any later one is made. -/
theorem pairwise_all (r : Request) :
    (r.all p).Pairwise (fun a b => ∀ f, a.file? p = some f → b.session.has f = true) := by
  obtain ⟨room, stem, s⟩ := r
  induction room generalizing stem s with
  | zero => exact List.pairwise_singleton _ _
  | succ room ih =>
    refine List.pairwise_cons.2 ⟨fun b hb f hf => ?_, ?_⟩
    · obtain ⟨made, hmakes, hb⟩ := mem_nested_iff.1 hb
      exact (evolves_of_mem_all hb).1.has (hmakes.has_of_file? hf)
    · refine List.pairwise_flatMap.2 ⟨fun call _ => ih call.1 call.2, ?_⟩
      refine (pairwise_loadCalls room stem s).imp ?_
      intro a b hab x hx y hy f hf
      have hbefore := (evolves_of_mem_all (r := ⟨room, a.1, a.2⟩) hx).2
      have hafter := (evolves_of_mem_all (r := ⟨room, b.1, b.2⟩) hy).1
      exact ((hbefore.trans hab).trans hafter).has (has_of_file? hf)

/-! ### What a request loads -/

/-- The files that a request loads, at any remove, in order. -/
def loads (p : Project) (r : Request) : List Text :=
  (r.all p).filterMap (file? p)

theorem nested_succ (room : Nat) (stem : Text) (s : Session) :
    nested p ⟨room + 1, stem, s⟩ =
      (loadCalls p room stem s).flatMap (fun call => all p ⟨room, call.1, call.2⟩) :=
  rfl

theorem loads_succ (room : Nat) (stem : Text) (s : Session) :
    loads p ⟨room + 1, stem, s⟩ = (file? p ⟨room + 1, stem, s⟩).toList ++
      (loadCalls p room stem s).flatMap (fun call => loads p ⟨room, call.1, call.2⟩) := by
  rw [loads, all, List.filterMap_cons, nested_succ, List.filterMap_flatMap]
  cases file? p ⟨room + 1, stem, s⟩ <;> rfl

/-- If all requests are plain, no file is loaded twice. -/
theorem nodup_loads {r : Request} (hplain : ∀ r' ∈ r.all p, r'.Plain p) : (r.loads p).Nodup := by
  refine List.pairwise_filterMap.2 ((pairwise_all r).imp_of_mem ?_)
  intro a b _ hb hab f hf g hg heq
  have hold := hab f hf
  rw [heq, (hplain b hb).not_has_of_file? hg] at hold
  cases hold

/-- If all requests are plain, no file is loaded that was in the corpus before. -/
theorem not_has_of_mem_loads {r : Request} (hplain : ∀ r' ∈ r.all p, r'.Plain p) {f : Text}
    (h : f ∈ r.loads p) : r.session.has f = false := by
  obtain ⟨r', hr', hf⟩ := List.mem_filterMap.1 h
  rw [← Bool.not_eq_true]
  intro hold
  have hhas := (evolves_of_mem_all hr').1.has hold
  rw [(hplain r' hr').not_has_of_file? hf] at hhas
  cases hhas

/-- A request reads the files that it loads and no others, unless a file cannot be read. -/
theorem reads_result
    (hread : ∀ c, p.files.isFile c = true → ∃ content, p.files.read c = .ok content)
    (r : Request) : (r.result p).2.reads = r.session.reads ++ r.loads p := by
  obtain ⟨room, stem, s⟩ := r
  induction room generalizing stem s with
  | zero => simp [result, loadWithin, loads, all, nested, nestedWithin, file?]
  | succ room ih =>
    rw [loads_succ]
    unfold file? result loadWithin loadCalls
    dsimp only
    split
    · simp
    · rw [probe_fst]
      cases hprobed : p.probed? stem with
      | none => simp [reads_probe]
      | some c =>
        dsimp only
        split
        · simp [reads_probe]
        · obtain ⟨content, hcontent⟩ := hread c (List.find?_some hprobed)
          rw [hcontent]
          dsimp only
          rw [reads_feed (fun call _ => ih call.1 call.2), reads_note, reads_probe,
            List.append_assoc]
          rfl

/-! ### Nesting -/

/-- Requests that make one another come in this order among all requests. -/
theorem sublist_all_of_isChain {r : Request} {rs : List Request}
    (h : (r :: rs).IsChain (Makes p)) : (r :: rs).Sublist (r.all p) := by
  induction rs generalizing r with
  | nil => exact (List.nil_sublist _).cons_cons r
  | cons made rs ih =>
    obtain ⟨hmakes, hrest⟩ := List.isChain_cons_cons.1 h
    refine List.Sublist.cons_cons r ((ih hrest).trans ?_)
    cases hmakes with
    | call hcall => exact List.sublist_flatten_of_mem (List.mem_map_of_mem hcall)

/-- Of requests that make one another, all but the last have loaded a file. -/
theorem length_le_of_isChain {r : Request} {rs : List Request}
    (h : (r :: rs).IsChain (Makes p)) : rs.length ≤ ((r :: rs).filterMap (file? p)).length := by
  induction rs generalizing r with
  | nil => exact Nat.zero_le _
  | cons made rs ih =>
    obtain ⟨hmakes, hrest⟩ := List.isChain_cons_cons.1 h
    obtain ⟨f, hf⟩ := hmakes.exists_file
    rw [List.filterMap_cons, hf, List.length_cons, List.length_cons]
    exact Nat.succ_le_succ (ih hrest)

/-- If all requests are plain, requests are nested no deeper than there are files, and one more for
a request that finds nothing. -/
theorem nesting_le {files : List Text}
    (hfiles : ∀ path content, p.files.read path = .ok content → Path.toProject path ∈ files)
    {r : Request} (hplain : ∀ r' ∈ r.all p, r'.Plain p) {rs : List Request}
    (h : (r :: rs).IsChain (Makes p)) : (r :: rs).length ≤ files.length + 1 := by
  have hsub : r.loads p ⊆ files := by
    intro f hf
    obtain ⟨r', -, hf⟩ := List.mem_filterMap.1 hf
    obtain ⟨_, _, c, content, -, -, -, hread, rfl, -⟩ := exists_opened hf
    exact hfiles c content hread
  calc (r :: rs).length = rs.length + 1 := List.length_cons
    _ ≤ ((r :: rs).filterMap (file? p)).length + 1 := Nat.succ_le_succ (length_le_of_isChain h)
    _ ≤ (r.loads p).length + 1 :=
      Nat.succ_le_succ ((sublist_all_of_isChain h).filterMap (file? p)).length_le
    _ ≤ files.length + 1 := Nat.succ_le_succ ((nodup_loads hplain).length_le_of_subset hsub)

end Request

/-! ## Projects whose imports are plain -/

namespace Tree

variable {t : Tree}

theorem exists_file_of_read {path content : Text} (h : t.read path = .ok content) :
    ⟨Path.toProject path, content⟩ ∈ t.files := by
  unfold read at h
  dsimp only at h
  split at h
  · cases h
  · split at h
    · next f hf =>
      cases h
      have hpath := List.find?_some hf
      rw [decide_eq_true_eq] at hpath
      exact hpath ▸ List.mem_of_find?_eq_some hf
    · cases h

/-- Without paths that fail, every file can be read. -/
theorem exists_read_of_isFile (ht : t.failing = []) {path : Text} (h : t.isFile path = true) :
    ∃ content, t.read path = .ok content := by
  obtain ⟨f, hf⟩ := Option.isSome_iff_exists.1 h
  refine ⟨f.content, ?_⟩
  simp [read, ht, hf]

/-- The file that the stem stands for, if any, is found under its project path. -/
def FindsPlainly (t : Tree) (stem : Text) : Prop :=
  ∀ c ∈ (Path.candidates stem).find? t.isFile, Path.toProject c = c

instance (t : Tree) (stem : Text) : Decidable (t.FindsPlainly stem) :=
  inferInstanceAs (Decidable (∀ c ∈ (Path.candidates stem).find? t.isFile, Path.toProject c = c))

/-- Only stems that are not plain lead to files under other paths. -/
theorem findsPlainly_of_isPlain {stem : Text} (hstem : Path.toProject stem = stem)
    (hplain : Path.IsPlain stem) : t.FindsPlainly stem :=
  fun _ hc => hplain.toProject_candidate hstem (List.mem_of_find?_eq_some hc)

/-- What the specifiers of files stand for is found under project paths. -/
def ImportsPlainly (t : Tree) (specifiersIn : Text → List Text) (aliases : AliasResolver) : Prop :=
  ∀ f ∈ t.files, Session.isScannable f.path = true → ∀ specifier ∈ specifiersIn f.content,
    ∀ stem ∈ Specifier.stems aliases (Path.directory f.path) specifier, t.FindsPlainly stem

instance (t : Tree) (specifiersIn : Text → List Text) (aliases : AliasResolver) :
    Decidable (t.ImportsPlainly specifiersIn aliases) :=
  inferInstanceAs (Decidable (∀ f ∈ t.files, Session.isScannable f.path = true →
    ∀ specifier ∈ specifiersIn f.content,
      ∀ stem ∈ Specifier.stems aliases (Path.directory f.path) specifier, t.FindsPlainly stem))

/-- In such a project a plain request makes plain requests only. -/
theorem ImportsPlainly.plain {specifiersIn : Text → List Text} {settings : Settings}
    {r : Request} (h : t.ImportsPlainly specifiersIn r.session.aliases)
    (hr : r.Plain (t.project specifiersIn settings)) {r' : Request}
    (hr' : r' ∈ r.all (t.project specifiersIn settings)) :
    r'.Plain (t.project specifiersIn settings) := by
  have hproject := Request.toProject_stem_of_mem_all hr' hr.project
  rw [Request.mem_all_iff] at hr'
  rcases Relation.ReflTransGen.cases_tail hr' with rfl | ⟨parent, hparent, hmakes⟩
  · exact hr
  · have hmem := Request.mem_all_iff.2 hparent
    have hstem := Request.toProject_stem_of_mem_all hmem hr.project
    obtain ⟨c, content, hprobed, hread, -, hscan, specifier, hspecifier, u, hu, hfirst, -⟩ :=
      hmakes.exists_specifier
    have hname := Project.namesFile_of_probed? hstem hprobed
    obtain ⟨before, after, hstems, -⟩ := Session.exists_of_mem_firstCalls hfirst
    refine ⟨hproject, h _ (exists_file_of_read hread) ?_ specifier hspecifier r'.stem ?_⟩
    · rwa [Session.isScannable, hname.ofPath?_toProject]
    · rw [Specifier.stems_directory_toProject hname, ← (Request.evolves_of_mem_all hmem).1.aliases,
        ← hu.aliases, hstems]
      exact List.mem_append_right _ List.mem_cons_self

end Tree

namespace Session

open Request

/-! ## Main results -/

/-- In a project without failing paths whose imports are found under project paths, loading a source
treats the corpus as its visited set, whatever the session did before and however much room there
is: what is loaded was not in the corpus before and is there afterwards; the files that are read are
those that are loaded, none twice and none that was in the corpus already; and requests are nested
no deeper than there are files, and one more. -/
theorem loadSource_visits_once (t : Tree) (ht : t.failing = []) (specifiersIn : Text → List Text)
    (settings : Settings) (s : Session) (himports : t.ImportsPlainly specifiersIn s.aliases)
    (path : Text) (hpath : t.FindsPlainly (Path.toProject path)) (depth : Nat) :
    let p := t.project specifiersIn settings
    let r := ofSource p path depth s
    (∀ r' ∈ r.all p, ∀ c, (r'.result p).1 = .loaded c →
      r'.session.has c = false ∧ (r'.result p).2.has c = true) ∧
    (loadSource p path depth s).2.reads = s.reads ++ r.loads p ∧
    (r.loads p).Nodup ∧
    (∀ f ∈ r.loads p, s.has f = false) ∧
    ∀ rs : List Request, (r :: rs).IsChain (Makes p) → (r :: rs).length ≤ t.files.length + 1 := by
  intro p r
  have hplain : ∀ r' ∈ r.all p, r'.Plain p :=
    fun _ => himports.plain (r := r) ⟨Path.toProject_toProject path, hpath⟩
  refine ⟨?_, ?_, nodup_loads hplain, fun f hf => not_has_of_mem_loads hplain hf, ?_⟩
  · intro r' hr' c hloaded
    have hfile := file?_eq_some_iff.2 ⟨c, hloaded, (hplain r' hr').found c
      (probed?_of_loaded hloaded)⟩
    exact ⟨(not_has_of_loaded hloaded).2, has_of_file? hfile⟩
  · exact reads_result (fun _ => t.exists_read_of_isFile ht) r
  · intro rs hchain
    have hfiles : ∀ path content, p.files.read path = .ok content →
        Path.toProject path ∈ t.files.map StoredFile.path :=
      fun _ _ hread => List.mem_map_of_mem (Tree.exists_file_of_read hread)
    rw [← List.length_map StoredFile.path]
    exact nesting_le hfiles hplain hchain

/-- Two files that import each other. -/
def ring : Tree :=
  .ofFiles [("a.ts".toList, "import './b.js'".toList), ("b.ts".toList, "import './a'".toList)]

set_option maxRecDepth 20000 in
theorem loadSource_visits_ring_once :
    let p := ring.project Specifier.extract {}
    ring.failing = [] ∧ ring.ImportsPlainly Specifier.extract new.aliases ∧
      ring.FindsPlainly (Path.toProject "a".toList) ∧
      (loadSource p "a".toList 0 new).2.reads = ["a.ts".toList, "b.ts".toList] ∧
      ∀ rs : List Request, ((ofSource p "a".toList 0 new) :: rs).IsChain (Makes p) →
        rs.length ≤ 2 := by
  intro p
  have hplain : ring.ImportsPlainly Specifier.extract new.aliases := by decide
  have hentry : ring.FindsPlainly (Path.toProject "a".toList) := by decide
  obtain ⟨-, hreads, -, -, hnesting⟩ := loadSource_visits_once ring rfl Specifier.extract {} new
    hplain "a".toList hentry 0
  refine ⟨rfl, hplain, hentry, hreads.trans (by decide), fun rs hrs => ?_⟩
  exact Nat.le_of_succ_le_succ (hnesting rs hrs)

end Session

/-! ## A file that imports itself by a stem that is not plain -/

namespace Request

open Session

/-- What a request loads that finds a file with a single specifier for a single stem. -/
theorem exists_loads_eq_cons {p : Project} {stem c content specifier next : Text} {s : Session}
    (hprobed : p.probed? stem = some c) (hread : p.files.read c = .ok content)
    (hstem : s.has stem = false) (hc : s.has c = false) (hscan : isScannable c = true)
    (hspecifiers : p.specifiersIn content = [specifier])
    (hstems : ∀ aliases, Specifier.stems aliases (Path.directory c) specifier = [next])
    (room : Nat) :
    ∃ t, Quiet p s t ∧ loads p ⟨room + 1, stem, s⟩ =
      Path.toProject c :: loads p ⟨room, next, (t.register p c content).2⟩ := by
  cases served p room stem s with
  | known _ _ hfound _ _ =>
    rcases hfound with hfound | ⟨d, hd, hfound⟩
    · rw [hstem] at hfound
      cases hfound
    · obtain rfl : c = d := Option.some_inj.1 (hprobed.symm.trans hd)
      rw [hc] at hfound
      cases hfound
  | missed _ _ hmissing _ _ =>
    rw [Project.readable?_eq_some_iff.2 ⟨c, content, hprobed, hread, rfl⟩] at hmissing
    cases hmissing
  | opened t d content' hquiet hd hread' hresult hcalls =>
    obtain rfl : c = d := Option.some_inj.1 (hprobed.symm.trans hd)
    obtain rfl : content = content' := Except.ok.inj (hread.symm.trans hread')
    have hfile : file? p ⟨room + 1, stem, s⟩ = some (Path.toProject c) := by
      rw [file?, result, hresult]
    refine ⟨t, hquiet, ?_⟩
    rw [loads_succ, hfile, hcalls, feedCalls, if_pos hscan, hspecifiers]
    simp [followCalls, hstems, firstCalls]

end Request

namespace Tree

open Session

/-- A file that imports the directory it is the index of, by a stem that is nothing but a suffix. -/
def selfImport : Tree :=
  .ofFiles [("src/index.ts".toList, "import './.ts'".toList)]

variable (settings : Settings)

set_option maxRecDepth 20000 in
/-- Whichever way the file is found, it is loaded and makes a request for the stem that is not
plain, and neither that stem nor the path that it leads to get into the corpus. -/
theorem exists_loads_selfImport {stem c : Text}
    (hc : c = "src/index.ts".toList ∨ c = "src//index.ts".toList)
    (hprobed : (Path.candidates stem).find? selfImport.isFile = some c) {s : Session}
    (hstem : s.has stem = false) (hnew : s.has c = false)
    (hhere : s.has "src/.ts".toList = false) (hindex : s.has "src//index.ts".toList = false)
    (room : Nat) :
    ∃ t : Session, t.has "src/.ts".toList = false ∧ t.has "src//index.ts".toList = false ∧
      Request.loads (selfImport.project Specifier.extract settings) ⟨room + 1, stem, s⟩ =
        "src/index.ts".toList ::
          Request.loads (selfImport.project Specifier.extract settings)
            ⟨room, "src/.ts".toList, t⟩ := by
  have hread : selfImport.read c = .ok "import './.ts'".toList := by
    rcases hc with rfl | rfl <;> decide
  have hproject : Path.toProject c = "src/index.ts".toList := by
    rcases hc with rfl | rfl <;> decide
  have hscan : isScannable c = true := by
    rcases hc with rfl | rfl <;> decide
  have hstems (aliases : AliasResolver) :
      Specifier.stems aliases (Path.directory c) "./.ts".toList = ["src/.ts".toList] := by
    have hjoin : Path.join (Path.directory c) "./.ts".toList = "src/.ts".toList := by
      rcases hc with rfl | rfl <;> decide
    rw [← hjoin]
    rfl
  have hspecifiers : Specifier.extract "import './.ts'".toList = ["./.ts".toList] := by decide
  obtain ⟨t, hquiet, hloads⟩ := Request.exists_loads_eq_cons
    (p := selfImport.project Specifier.extract settings) hprobed hread hstem hnew hscan
    hspecifiers hstems room
  have hkeeps {g : Text} (hg : s.has g = false) (hne : "src/index.ts".toList ≠ g)
      (content : Text) : (t.register (selfImport.project Specifier.extract settings) c
        content).2.has g = false := by
    rw [← Bool.not_eq_true, has_register_iff, hquiet.has, hg, hproject]
    rintro (hfalse | heq)
    · cases hfalse
    · exact hne heq
  exact ⟨_, hkeeps hhere (by decide) _, hkeeps hindex (by decide) _, hproject ▸ hloads⟩

set_option maxRecDepth 20000 in
/-- From there on the file is loaded as often as there is room. -/
theorem loads_selfImport (room : Nat) {s : Session} (hhere : s.has "src/.ts".toList = false)
    (hindex : s.has "src//index.ts".toList = false) :
    Request.loads (selfImport.project Specifier.extract settings) ⟨room, "src/.ts".toList, s⟩ =
      List.replicate room "src/index.ts".toList := by
  induction room generalizing s with
  | zero => rfl
  | succ room ih =>
    obtain ⟨t, hhere', hindex', hloads⟩ := exists_loads_selfImport settings (.inr rfl)
      (by decide) hhere hindex hhere hindex room
    rw [hloads, ih hhere' hindex', List.replicate_succ]

end Tree

set_option maxRecDepth 20000 in
/-- A file whose import is not plain is read as often as the bound on depth allows, though it is
the only file of the project. -/
theorem Session.reads_loadSource_selfImport (settings : Settings) :
    let p := Tree.selfImport.project Specifier.extract settings
    (loadSource p "src/index.ts".toList 0 new).2.reads =
      List.replicate settings.maxSourceDepth "src/index.ts".toList := by
  intro p
  have hread : ∀ c, p.files.isFile c = true → ∃ content, p.files.read c = .ok content :=
    fun _ => Tree.selfImport.exists_read_of_isFile rfl
  have hstem : Path.toProject "src/index.ts".toList = "src/index.ts".toList := by decide
  refine (Request.reads_result hread (.ofSource p "src/index.ts".toList 0 new)).trans ?_
  change Request.loads p ⟨settings.maxSourceDepth, _, new⟩ = _
  rw [hstem]
  cases settings.maxSourceDepth with
  | zero => rfl
  | succ room =>
    have hprobed : (Path.candidates "src/index.ts".toList).find? Tree.selfImport.isFile =
        some "src/index.ts".toList := by decide
    obtain ⟨t, hhere, hindex, hloads⟩ := Tree.exists_loads_selfImport settings (.inl rfl) hprobed
      (s := new) rfl rfl rfl rfl room
    rw [hloads, Tree.loads_selfImport settings room hhere hindex, List.replicate_succ]

set_option maxRecDepth 20000 in
/-- With room for three files the only file is read three times, though no path fails. The nested
requests answer that they loaded a path that is not in the corpus even then. -/
theorem Session.not_nodup_reads_selfImport :
    let p := Tree.selfImport.project Specifier.extract { maxSourceDepth := 3 }
    let r := Request.ofSource p "src/index.ts".toList 0 new
    Tree.selfImport.failing = [] ∧ ¬ (loadSource p "src/index.ts".toList 0 new).2.reads.Nodup ∧
      ∃ r' ∈ r.nested p, (r'.result p).1 = .loaded "src//index.ts".toList ∧
        (r'.result p).2.has "src//index.ts".toList = false := by
  intro p r
  have hreads := reads_loadSource_selfImport { maxSourceDepth := 3 }
  dsimp only at hreads
  refine ⟨rfl, by rw [hreads]; decide, by decide⟩

end SourceClosure
