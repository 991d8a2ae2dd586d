import Mathlib.Data.List.Chain
import SourceClosure.Specifier.Scan
import SourceClosure.Proofs.Session.Closure

/-!
# The bound on depth

A request is made with the room that is left for a chain of files, which is one file less than that
of the request it is made on behalf of. This is the same as counting up: a loader that carries its
depth as a machine word, and adds one to it for every request that it makes, answers alike
(`loadAtDepth_eq`), because a depth below the bound has a successor among the words. Whatever a
request brings in therefore ends a chain of imports within the bound, and of files that import each
other in a line a request brings in as many as there is room for (`corpus_loadWithin_of_isLine`).
-/

namespace SourceClosure

namespace Session

variable {p : Project}

/-! ## Counting up -/

/-- What a request with room does, where `load` serves the requests that it makes. -/
def serve (p : Project) (load : Text → Session → LoadOutcome × Session) (stem : Text)
    (s : Session) : LoadOutcome × Session :=
  if s.has stem then (.alreadyLoaded, s)
  else
    let probed := probe p stem s
    match probed.1 with
    | none => (.notFound, probed.2)
    | some path =>
      if probed.2.has path then (.alreadyLoaded, probed.2)
      else
        let s := probed.2.note (.read path)
        match p.files.read path with
        | .error _ => (.notFound, s)
        | .ok content => (.loaded path, feed p load path content s)

theorem loadWithin_succ (room : Nat) (stem : Text) (s : Session) :
    loadWithin p (room + 1) stem s = serve p (loadWithin p room) stem s :=
  rfl

/-- A depth below the bound can be counted up without an overflow. -/
theorem toNat_add_one_of_lt {depth bound : UInt64} (h : depth < bound) :
    (depth + 1).toNat = depth.toNat + 1 := by
  have hlt : depth.toNat < bound.toNat := UInt64.lt_iff_toNat_lt.1 h
  rw [UInt64.toNat_add]
  exact Nat.mod_eq_of_lt (Nat.lt_of_le_of_lt (Nat.succ_le_of_lt hlt) bound.toNat_lt_size)

/-- Loads the file that a stem stands for and what it leads to, down to the bound on depth. Depths
are machine words, which wrap around. -/
def loadAtDepth (p : Project) (bound depth : UInt64) (stem : Text) (s : Session) :
    LoadOutcome × Session :=
  if h : depth < bound then serve p (loadAtDepth p bound (depth + 1)) stem s
  else (.skipped .depthExceeded, s)
termination_by bound.toNat - depth.toNat
decreasing_by
  have hlt : depth.toNat < bound.toNat := UInt64.lt_iff_toNat_lt.1 ‹depth < bound›
  rw [toNat_add_one_of_lt ‹depth < bound›]
  omega

/-- Counting up in machine words comes to the same as counting down the room. -/
theorem loadAtDepth_eq (p : Project) (bound depth : UInt64) (stem : Text) (s : Session) :
    loadAtDepth p bound depth stem s = loadWithin p (bound.toNat - depth.toNat) stem s := by
  obtain ⟨room, hroom⟩ : ∃ room, bound.toNat - depth.toNat = room := ⟨_, rfl⟩
  rw [hroom]
  induction room generalizing depth stem s with
  | zero =>
    have hnot : ¬ depth < bound := by
      rw [UInt64.lt_iff_toNat_lt]
      omega
    rw [loadAtDepth, dif_neg hnot]
    rfl
  | succ room ih =>
    have hlt : depth < bound := by
      rw [UInt64.lt_iff_toNat_lt]
      omega
    have hnext : bound.toNat - (depth + 1).toNat = room := by
      rw [toNat_add_one_of_lt hlt]
      omega
    have hload : loadAtDepth p bound (depth + 1) = loadWithin p room := by
      funext stem s
      exact ih (depth + 1) stem s hnext
    rw [loadAtDepth, dif_pos hlt, loadWithin_succ, hload]

end Session

/-! ## Files in a line -/

/-- The files are scripts that can be read. Each but the last has one specifier, which leads to the
next file, and the last has none. -/
structure Project.IsLine (p : Project) (aliases : AliasResolver) (files : List CorpusFile) :
    Prop where
  distinct : (files.map CorpusFile.path).Nodup
  script : ∀ f ∈ files, Path.isScript f.path = true
  project : ∀ f ∈ files, Path.toProject f.path = f.path
  read : ∀ f ∈ files, p.files.read f.path = .ok f.content
  leads : files.IsChain (fun f g => ∃ specifier, p.specifiersIn f.content = [specifier] ∧
    p.resolve? aliases (Path.directory f.path) specifier = some g.path)
  ends : ∀ f ∈ files.getLast?, p.specifiersIn f.content = []

namespace Project.IsLine

variable {p : Project} {aliases : AliasResolver} {f : CorpusFile} {files : List CorpusFile}

theorem tail (h : p.IsLine aliases (f :: files)) : p.IsLine aliases files where
  distinct := (List.nodup_cons.1 h.distinct).2
  script := fun g hg => h.script g (List.mem_cons_of_mem f hg)
  project := fun g hg => h.project g (List.mem_cons_of_mem f hg)
  read := fun g hg => h.read g (List.mem_cons_of_mem f hg)
  leads := h.leads.tail
  ends := by
    cases files with
    | nil => simp
    | cons g files => simpa using h.ends

end Project.IsLine

namespace Session

variable {p : Project}

theorem loadFirst_loadWithin_zero (stems : List Text) (s : Session) :
    loadFirst (loadWithin p 0) stems s = s := by
  cases stems with
  | nil => rfl
  | cons stem stems => simp [loadFirst, loadWithin]

theorem isScannable_of_isScript {path : Text} (h : Path.isScript path = true) :
    isScannable path = true := by
  unfold Path.isScript at h
  unfold isScannable
  cases hs : Suffix.ofPath? path with
  | none => rw [hs] at h; cases h
  | some x =>
    rw [hs, Option.any_some] at h
    revert h
    cases x <;> decide

/-- A request with room for a script that is not in the corpus feeds the script, and follows its
specifiers with one file less. -/
theorem exists_loadWithin_eq_foldl (hp : p.files.Lexical) {s : Session} (hs : FromFiles p s)
    {f : CorpusFile} (hscript : Path.isScript f.path = true)
    (hread : p.files.read f.path = .ok f.content) (hnew : s.has f.path = false) {stem : Text}
    (hstem : Path.toProject stem = stem) (hfirst : p.readable? stem = some f.path) (room : Nat) :
    ∃ c u, Path.NamesFile c ∧ Path.toProject c = f.path ∧ Evolves p s u ∧
      u.corpus = s.corpus ++ [f] ∧ (loadWithin p (room + 1) stem s).2 =
        (p.specifiersIn f.content).foldl (follow (loadWithin p room) (Path.directory c)) u := by
  cases served p room stem s with
  | known _ _ hfound _ _ =>
    -- The corpus would have the file that the stem stands for.
    rcases hfound with hfound | ⟨c, hprobed, hfound⟩
    · rw [hs.readable? hfound] at hfirst
      cases hfirst
      rw [hnew] at hfound
      cases hfound
    · rw [hs.candidate hp hprobed hfound] at hfirst
      cases hfirst
      rw [hnew] at hfound
      cases hfound
  | missed _ _ hmissing _ _ =>
    rw [hmissing] at hfirst
    cases hfirst
  | opened t c content hquiet hprobed hc hresult _ =>
    have hname := Project.namesFile_of_probed? hstem hprobed
    have hpath : Path.toProject c = f.path := by
      rw [Project.readable?_eq_some_iff.2 ⟨c, content, hprobed, hc, rfl⟩] at hfirst
      exact Option.some_inj.1 hfirst
    have hcontent : f.content = content := by
      rw [← hpath, hp.read, hc] at hread
      exact (Except.ok.inj hread).symm
    have hscan : isScannable c = true := by
      rw [isScannable, ← hname.ofPath?_toProject, hpath]
      exact isScannable_of_isScript hscript
    refine ⟨c, (t.register p c content).2, hname, hpath, ?_, ?_, ?_⟩
    · exact hquiet.evolves.trans (Change.feed t hc hname.suffix).evolves
    · have hfresh : t.has (Path.toProject c) = false := by rw [hquiet.has, hpath, hnew]
      rw [register_of_not_has hfresh, hquiet.corpus, hpath, ← hcontent]
    · rw [hresult, feed, if_pos hscan, hcontent]

/-- A request for the first file of a line, none of which is in the corpus, brings in as many of
them as there is room for. -/
theorem corpus_loadWithin_of_isLine (hp : p.files.Lexical) {f : CorpusFile}
    {files : List CorpusFile} {s : Session} (hline : p.IsLine s.aliases (f :: files))
    (hs : FromFiles p s) (hnew : ∀ g ∈ f :: files, s.has g.path = false) {stem : Text}
    (hstem : Path.toProject stem = stem) (hfirst : p.readable? stem = some f.path) (room : Nat) :
    (loadWithin p room stem s).2.corpus = s.corpus ++ (f :: files).take room := by
  induction files generalizing f stem s room with
  | nil =>
    cases room with
    | zero => simp [loadWithin]
    | succ room =>
      obtain ⟨c, u, -, -, -, hcorpus, hresult⟩ := exists_loadWithin_eq_foldl hp hs
        (hline.script f List.mem_cons_self) (hline.read f List.mem_cons_self)
        (hnew f List.mem_cons_self) hstem hfirst room
      rw [hresult, hline.ends f rfl, List.foldl_nil, hcorpus, List.take_succ_cons, List.take_nil]
  | cons g files ih =>
    cases room with
    | zero => simp [loadWithin]
    | succ room =>
      obtain ⟨c, u, hname, hpath, hevolves, hcorpus, hresult⟩ := exists_loadWithin_eq_foldl hp hs
        (hline.script f List.mem_cons_self) (hline.read f List.mem_cons_self)
        (hnew f List.mem_cons_self) hstem hfirst room
      obtain ⟨⟨specifier, hspecifiers, hleads⟩, -⟩ := List.isChain_cons_cons.1 hline.leads
      rw [← hpath, Project.resolve?, Specifier.stems_directory_toProject hname,
        ← hevolves.aliases] at hleads
      have hkind : Specifier.kind u.aliases specifier ≠ .external := by
        intro hkind
        rw [Specifier.stems, hkind] at hleads
        cases hleads
      rw [hresult, hspecifiers, List.foldl_cons, List.foldl_nil, follow_eq_loadFirst hkind]
      cases room with
      | zero => rw [loadFirst_loadWithin_zero, hcorpus, List.take_succ_cons, List.take_zero]
      | succ room =>
        obtain ⟨next, hnext, hg, t, hquiet, hfollow⟩ :=
          exists_loadFirst_eq hp (hs.evolves hp hevolves) room hleads
        have hst := hevolves.trans hquiet.evolves
        have hfresh : ∀ x ∈ g :: files, t.has x.path = false := by
          intro x hx
          have hne : x.path ≠ f.path := by
            intro heq
            refine (List.nodup_cons.1 hline.distinct).1 ?_
            rw [← heq]
            exact List.mem_map_of_mem hx
          rw [hquiet.has, has, hcorpus, List.any_append, ← has, hnew x (List.mem_cons_of_mem f hx)]
          simpa using hne.symm
        have hrest := ih (hst.aliases.symm ▸ hline.tail) (hs.evolves hp hst) hfresh
          (Specifier.toProject_of_mem_stems hname hnext) hg (room + 1)
        rw [hfollow, hrest, hquiet.corpus, hcorpus, List.append_assoc, List.singleton_append,
          ← List.take_succ_cons]

/-! ## What is registered -/

/-- The files that get into the corpus are not those that were there before. -/
theorem Evolves.not_has_of_mem_drop {s t : Session} (h : Evolves p s t) {f : CorpusFile}
    (hf : f ∈ t.corpus.drop s.corpus.length) : s.has f.path = false := by
  refine h.invariant (I := fun t => s.corpus <+: t.corpus ∧
    ∀ f ∈ t.corpus.drop s.corpus.length, s.has f.path = false) ?_ ?_ |>.2 f hf
  · rintro t u hchange ⟨hgrows, hnew⟩
    refine ⟨hgrows.trans hchange.evolves.corpus_grows, ?_⟩
    cases hchange with
    | note => exact hnew
    | @feed path content _ _ =>
      cases hhas : t.has (Path.toProject path) with
      | true => rwa [register_of_has hhas]
      | false =>
        intro f hf
        rw [register_of_not_has hhas, List.drop_append_of_le_length hgrows.length_le,
          List.mem_append, List.mem_singleton] at hf
        rcases hf with hf | rfl
        · exact hnew f hf
        · rw [← Bool.not_eq_true]
          intro hold
          have hnow : t.has (Path.toProject path) = true := has_of_prefix hgrows hold
          rw [hnow] at hhas
          cases hhas
    | discover => rwa [discover_corpus]
    | take => exact hnew
    | requeue => exact hnew
  · simp

end Session

namespace Request

open Session

variable {p : Project}

/-- What a request registers ends a chain of imports with fewer links than the request has room. -/
theorem exists_chain_of_registered (hp : p.files.Lexical) {r : Request}
    (hstem : Path.toProject r.stem = r.stem) {f : CorpusFile}
    (hf : f ∈ (growth (r.result p).2 r.session).files) :
    ∃ f₀ k, p.readable? r.stem = some f₀ ∧ Chain (p.Imports r.session.aliases) f₀ k f.path ∧
      k < r.room := by
  have hgrows : Evolves p r.session (r.result p).2 := evolves_loadWithin r.room r.stem r.session
  have hhas : (r.result p).2.has f.path = true := has_iff.2 ⟨f, List.mem_of_mem_drop hf, rfl⟩
  rcases exists_file_of_has hhas with hold | ⟨r', hr', hfile⟩
  · rw [hgrows.not_has_of_mem_drop hf] at hold
    cases hold
  · obtain ⟨f₀, hf₀⟩ := exists_readable?_of_file? hr' hfile
    obtain ⟨k, hk, hchain⟩ := chain_of_file? hp hstem hr' hf₀ hfile
    have hpos := room_pos_of_file? hfile
    exact ⟨f₀, k, hf₀, hchain.mono (fun _ _ hlink => hlink.2), by omega⟩

/-- Requests that make one another use up room, one file each. -/
theorem room_of_isChain {r : Request} {rs : List Request} (h : (r :: rs).IsChain (Makes p)) :
    rs.length ≤ r.room := by
  induction rs generalizing r with
  | nil => exact Nat.zero_le _
  | cons made rs ih =>
    obtain ⟨hmakes, hrest⟩ := List.isChain_cons_cons.1 h
    rw [hmakes.room, List.length_cons]
    exact Nat.succ_le_succ (ih hrest)

end Request

namespace Session

open Request

/-! ## Main result -/

/-- Loading a source keeps to the bound on depth, which like the depth may be any machine word. What
it registers ends a chain of imports that starts at the file of the source and has fewer links than
there are levels between the depth and the bound. It does the same as the loader that counts up in
machine words, and however requests are nested, their depths do not exceed the bound. And of files
in a line it registers, from an empty corpus, as many as there are levels, in the order of the
line. -/
theorem loadSource_keeps_to_depth (t : Tree) (specifiersIn : Text → List Text)
    (settings : Settings) (bound depth : UInt64) (hbound : settings.maxSourceDepth = bound.toNat)
    (path : Text) (s : Session) :
    let p := t.project specifiersIn settings
    let loaded := (loadSource p path depth.toNat s).2
    (∀ f ∈ (growth loaded s).files, ∃ f₀ k, p.readable? (Path.toProject path) = some f₀ ∧
      Chain (p.Imports s.aliases) f₀ k f.path ∧ depth.toNat + k < bound.toNat) ∧
    loadAtDepth p bound depth (Path.toProject path) s = loadSource p path depth.toNat s ∧
    (∀ made rs, (ofSource p path depth.toNat s :: made :: rs).IsChain (Makes p) →
      depth.toNat + (made :: rs).length ≤ bound.toNat ∧ bound.toNat < UInt64.size) ∧
    ∀ f files, p.IsLine s.aliases (f :: files) → s.corpus = [] →
      p.readable? (Path.toProject path) = some f.path →
      loaded.corpus = (f :: files).take (min (f :: files).length (bound.toNat - depth.toNat)) := by
  intro p loaded
  have hp : p.files.Lexical := t.lexical_store
  have hstem := Path.toProject_toProject path
  have hroom : p.settings.maxSourceDepth - depth.toNat = bound.toNat - depth.toNat :=
    congrArg (· - depth.toNat) hbound
  refine ⟨?_, ?_, ?_, ?_⟩
  · intro f hf
    obtain ⟨f₀, k, hf₀, hchain, hk⟩ :=
      exists_chain_of_registered hp (r := ofSource p path depth.toNat s) hstem hf
    have hk' : k < p.settings.maxSourceDepth - depth.toNat := hk
    exact ⟨f₀, k, hf₀, hchain, by omega⟩
  · rw [loadAtDepth_eq, loadSource, hroom]
  · intro made rs hchain
    have hlength := room_of_isChain hchain
    have hlength' : (made :: rs).length ≤ p.settings.maxSourceDepth - depth.toNat := hlength
    rw [List.length_cons] at hlength' ⊢
    exact ⟨by omega, bound.toNat_lt_size⟩
  · intro f files hline hcorpus hfirst
    have hfresh : ∀ g ∈ f :: files, s.has g.path = false := by simp [has, hcorpus]
    have hload := corpus_loadWithin_of_isLine hp hline (.of_corpus_nil hcorpus) hfresh hstem hfirst
      (p.settings.maxSourceDepth - depth.toNat)
    rw [hcorpus, List.nil_append, hroom] at hload
    change (loadWithin p (p.settings.maxSourceDepth - depth.toNat) (Path.toProject path) s).2.corpus
      = _
    rw [hroom, hload, List.take_eq_take_min, Nat.min_comm]

/-- Three files in a line. -/
def relay : List CorpusFile :=
  [⟨"a.ts".toList, "import './b'".toList⟩, ⟨"b.ts".toList, "import '/c'".toList⟩,
    ⟨"c.ts".toList, []⟩]

/-- The project of these files, with room for three files in a chain. -/
def relayProject : Project :=
  (Tree.ofFiles (relay.map (fun f => (f.path, f.content)))).project Specifier.extract
    { maxSourceDepth := 3 }

set_option maxRecDepth 20000 in
theorem isLine_relay : relayProject.IsLine new.aliases relay where
  distinct := by decide
  script := by decide
  project := by decide
  read := by decide
  leads := by
    refine .cons_cons ⟨"./b".toList, by decide⟩ (.cons_cons ⟨"/c".toList, by decide⟩ ?_)
    exact .singleton _
  ends := by decide

set_option maxRecDepth 20000 in
/-- One level down there is room for two of them. -/
theorem loadSource_relay_keeps_to_depth :
    let loaded := (loadSource relayProject "a".toList (1 : UInt64).toNat new).2
    relayProject.settings.maxSourceDepth = (3 : UInt64).toNat ∧
      relayProject.IsLine new.aliases relay ∧
      relayProject.readable? (Path.toProject "a".toList) = some "a.ts".toList ∧
      loaded.corpus = relay.take 2 ∧
      ∃ f₀ k, relayProject.readable? (Path.toProject "a".toList) = some f₀ ∧
        Chain (relayProject.Imports new.aliases) f₀ k "b.ts".toList ∧ 1 + k < 3 := by
  intro loaded
  have hfirst : relayProject.readable? (Path.toProject "a".toList) = some "a.ts".toList := by decide
  obtain ⟨hchain, -, -, hline⟩ := loadSource_keeps_to_depth
    (.ofFiles (relay.map (fun f => (f.path, f.content)))) Specifier.extract { maxSourceDepth := 3 }
    3 1 rfl "a".toList new
  have hcorpus : loaded.corpus = relay.take 2 := hline _ _ isLine_relay rfl hfirst
  refine ⟨rfl, isLine_relay, hfirst, hcorpus, hchain ⟨"b.ts".toList, "import '/c'".toList⟩ ?_⟩
  change _ ∈ loaded.corpus.drop 0
  rw [hcorpus]
  decide

end Session

end SourceClosure
